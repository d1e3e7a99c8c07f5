import BranchMarkup.Json
/-! What a JSON text has to hold. Shapes refer to each other by name, so that they can be recursive:
a layout gives each name its record or its choice. -/
namespace BranchMarkup.Json

inductive Shape (κ : Type) where
  | null
  | flag
  | text
  /-- A natural number below `2 ^ bits`. -/
  | word (bits : Nat)
  | list (item : Shape κ)
  | named (name : κ)
deriving DecidableEq, Repr

inductive Presence where
  | required
  /-- May be null, and may be missing from an object. -/
  | nullable
  /-- A list, which is empty where it is missing. -/
  | listable
deriving DecidableEq, Repr

structure RecordField (κ : Type) where
  name : String
  shape : Shape κ
  presence : Presence
deriving Repr

inductive Content (κ : Type) where
  | nothing
  | value (shape : Shape κ)
  | fields (name : κ)
deriving Repr

inductive Layout (κ : Type) where
  /-- An object, or an array of the fields in order. -/
  | record (title : String) (fields : List (RecordField κ))
  /-- An object with one member, named for the variant, or the bare name of one that holds
  nothing. -/
  | choice (variants : List (String × Content κ))
deriving Repr

/-- What stands for a field that an object lacks. -/
def Presence.missing? : Presence → Option Json
  | required => none
  | nullable => some .null
  | listable => some (.array [])

def Presence.short? : Presence → Option Json
  | required => none
  | nullable => none
  | listable => some (.array [])

end BranchMarkup.Json
