import ConcentratedPool.AmpGamma
import ConcentratedPool.CommandLine.Request
import ConcentratedPool.CommandLine.Session
import ConcentratedPool.CommandLine.Usage
import ConcentratedPool.CommandLine.Word
import ConcentratedPool.Curve.Basic
import ConcentratedPool.Curve.Solver
import ConcentratedPool.Decimal.Arithmetic
import ConcentratedPool.Decimal.Basic
import ConcentratedPool.Decimal.Mixed
import ConcentratedPool.Decimal.OfValue
import ConcentratedPool.Decimal.Parse
import ConcentratedPool.Decimal.Render
import ConcentratedPool.Fault
import ConcentratedPool.Fee
import ConcentratedPool.HalfPower
import ConcentratedPool.Iteration
import ConcentratedPool.Limits
import ConcentratedPool.Liquidity
import ConcentratedPool.Main
import ConcentratedPool.Market.Arbitrage
import ConcentratedPool.Market.NormalDraws
import ConcentratedPool.Market.PricePath
import ConcentratedPool.Market.Scenario
import ConcentratedPool.Market.Valuation
import ConcentratedPool.Numeric.Binary64
import ConcentratedPool.Numeric.FloatNumeral
import ConcentratedPool.Numeric.IntegerRoot
import ConcentratedPool.Pair
import ConcentratedPool.Pool.Asset
import ConcentratedPool.Pool.Basic
import ConcentratedPool.Pool.Funding
import ConcentratedPool.Pool.Governance
import ConcentratedPool.Pool.Ledger
import ConcentratedPool.Pool.Params
import ConcentratedPool.Pool.Query
import ConcentratedPool.Pool.Trade
import ConcentratedPool.PoolParams
import ConcentratedPool.PriceState
import ConcentratedPool.Promotion
import ConcentratedPool.Proofs.AccumulatedPrices
import ConcentratedPool.Proofs.BalanceAccuracy
import ConcentratedPool.Proofs.BalanceRounding
import ConcentratedPool.Proofs.BalanceSecants
import ConcentratedPool.Proofs.BasinSizes
import ConcentratedPool.Proofs.CheckedArithmetic
import ConcentratedPool.Proofs.ConstantProductRuns
import ConcentratedPool.Proofs.CurveRounding
import ConcentratedPool.Proofs.CurveSecants
import ConcentratedPool.Proofs.CurveTangent
import ConcentratedPool.Proofs.DecimalSpelling
import ConcentratedPool.Proofs.DepositFees
import ConcentratedPool.Proofs.EvenBalances
import ConcentratedPool.Proofs.ExactCurve
import ConcentratedPool.Proofs.FeeRates
import ConcentratedPool.Proofs.FirstDeposit
import ConcentratedPool.Proofs.GeometricMean
import ConcentratedPool.Proofs.GovernanceCalls
import ConcentratedPool.Proofs.GovernancePace
import ConcentratedPool.Proofs.HalfPowerAccuracy
import ConcentratedPool.Proofs.HalfPowerSeries
import ConcentratedPool.Proofs.LedgerSolvency
import ConcentratedPool.Proofs.MirrorSymmetry
import ConcentratedPool.Proofs.NewtonBasin
import ConcentratedPool.Proofs.NumeralGrammar
import ConcentratedPool.Proofs.OfferOrder
import ConcentratedPool.Proofs.OperandArithmetic
import ConcentratedPool.Proofs.OracleDecay
import ConcentratedPool.Proofs.OracleRange
import ConcentratedPool.Proofs.ParameterRanges
import ConcentratedPool.Proofs.PoolInvariant
import ConcentratedPool.Proofs.PoolOperations
import ConcentratedPool.Proofs.PriceUpdate
import ConcentratedPool.Proofs.ProfitFalls
import ConcentratedPool.Proofs.ProfitGate
import ConcentratedPool.Proofs.ProfitGrowth
import ConcentratedPool.Proofs.PromotionPath
import ConcentratedPool.Proofs.QuoteAgreement
import ConcentratedPool.Proofs.RepegDirection
import ConcentratedPool.Proofs.ResumedRuns
import ConcentratedPool.Proofs.RoundTrip
import ConcentratedPool.Proofs.ShareBacking
import ConcentratedPool.Proofs.SignedRounding
import ConcentratedPool.Proofs.SimulationBooks
import ConcentratedPool.Proofs.SlippageLimit
import ConcentratedPool.Proofs.SolverAccuracy
import ConcentratedPool.Proofs.SolverConvergence
import ConcentratedPool.Proofs.SolverRun
import ConcentratedPool.Proofs.SquareRoots
import ConcentratedPool.Proofs.StableBalance
import ConcentratedPool.Proofs.StepRounding
import ConcentratedPool.Proofs.SwapAccounts
import ConcentratedPool.Proofs.SwapValue
import ConcentratedPool.Proofs.TangentStep
import ConcentratedPool.Proofs.UnreadableDigits
import ConcentratedPool.Proofs.UpdateExits
import ConcentratedPool.Proofs.VirtualCapital
import ConcentratedPool.Quote.ConstantProduct
import ConcentratedPool.Quote.Dispatch
import ConcentratedPool.Quote.Stable
import ConcentratedPool.Record.Field
import ConcentratedPool.Record.FieldFault
import ConcentratedPool.Record.Numeral
import ConcentratedPool.Record.Reading
import ConcentratedPool.Record.Value
import ConcentratedPool.Report.Row
import ConcentratedPool.Report.Statistics
import ConcentratedPool.Report.Summary
import ConcentratedPool.Simulation.Basic
import ConcentratedPool.Simulation.Outcome
import ConcentratedPool.Simulation.Run
import ConcentratedPool.Simulation.Settings
import ConcentratedPool.Simulation.Setup
import ConcentratedPool.Swap
import ConcentratedPool.Text.Blank
import ConcentratedPool.Text.Digit
import ConcentratedPool.Text.Padding
import ConcentratedPool.Text.Printable
import ConcentratedPool.Text.Quoted
import ConcentratedPool.Text.UpperCase
