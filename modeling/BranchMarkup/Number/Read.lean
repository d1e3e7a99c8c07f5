import BranchMarkup.Number.Binary64
/-! Reading a decimal to the nearest double. -/
namespace BranchMarkup.Number

open Float.Model.UnpackedFloat (Sign)

def natOfDigits (cs : List Char) : Nat := cs.foldl (fun n c => 10 * n + (c.toNat - '0'.toNat)) 0

def takeSign : List Char → Sign × List Char
  | '-' :: cs => (.negative, cs)
  | '+' :: cs => (.positive, cs)
  | cs => (.positive, cs)

def exponent? (cs : List Char) : Option Int :=
  let (sign, digits) := takeSign cs
  if digits.isEmpty || !digits.all Char.isDigit then none
  else some (sign.apply (natOfDigits digits))

/-- Digits with a point somewhere, of which one must be there, and an exponent that may be
missing. -/
def decimal? (cs : List Char) : Option (Nat × Int) := do
  let whole := cs.takeWhile Char.isDigit
  let (fraction, rest) := match cs.dropWhile Char.isDigit with
    | '.' :: r => (r.takeWhile Char.isDigit, r.dropWhile Char.isDigit)
    | r => ([], r)
  if whole.isEmpty && fraction.isEmpty then none
  let shift ← match rest with
    | [] => some 0
    | e :: r => if e = 'e' || e = 'E' then exponent? r else none
  return (natOfDigits (whole ++ fraction), shift - fraction.length)

def magnitude? (cs : List Char) : Option Float :=
  let name := String.ofList (cs.map Char.toLower)
  if name = "inf" || name = "infinity" then some (infinity .positive)
  else if name = "nan" then some nan
  else (decimal? cs).map fun (m, e) => .ofModel (.ofScientific m e)

def read? (cs : List Char) : Option Float :=
  match takeSign cs with
  | (.positive, r) => magnitude? r
  | (.negative, r) => (magnitude? r).map (- ·)

end BranchMarkup.Number
