import ConcentratedPool.Record.Field

/-!
# Assets

An asset is a denomination with the number of places of its token amounts.
-/

set_option autoImplicit false
set_option relaxedAutoImplicit false

namespace ConcentratedPool

/-- An asset. -/
structure Asset where
  denom : String
  precision : Int
deriving DecidableEq, Repr

/-- Where the assets of a new pool come from: they are known, or described by a denomination and a
precision that have to be read yet. -/
inductive AssetSource where
  | known (asset : Asset)
  | described (denom precision : Value)

namespace Asset

/-- Reads an asset from the fields of a record. -/
def read (fields : Record.Fields) : Record.Reading Asset :=
  Asset.mk <$> Record.required fields "denom" Record.nonEmptyText
    <*> Record.required fields "precision" (Record.intBetween 0 18)

/-- The asset of a source. -/
def ofSource : AssetSource → Except Fault Asset
  | .known asset => .ok asset
  | .described denom precision => (read [("denom", denom), ("precision", precision)]).toExcept

end Asset

end ConcentratedPool
