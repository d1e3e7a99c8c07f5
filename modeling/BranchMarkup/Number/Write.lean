import BranchMarkup.Number.Binary64
import BranchMarkup.Number.Shortest
/-! Doubles as text. -/
namespace BranchMarkup.Number

open Float.Model.UnpackedFloat (Sign)

def signText : Sign → String
  | .negative => "-"
  | .positive => ""

def zeros (n : Nat) : List Char := List.replicate n '0'

def Decimal.positional (d : Decimal) : List Char :=
  let ds := Nat.toDigits 10 d.digits
  if 0 ≤ d.exponent then ds ++ zeros d.exponent.toNat
  else
    let places := (-d.exponent).toNat
    if places < ds.length then
      ds.take (ds.length - places) ++ '.' :: ds.drop (ds.length - places)
    else '0' :: '.' :: (zeros (places - ds.length) ++ ds)

def clampInt64 (n : Int) : Int := max (-(twoTo 63 : Nat)) (min ((twoTo 63 : Nat) - 1) n)

/-- Whole numbers below 10^21 are written as integers of 64 bits, other numbers by their shortest
digits without an exponent. -/
def text (x : Float) : String :=
  match unpack x with
  | .notANumber => "NaN"
  | .infinity sign => signText sign ++ "Infinity"
  | .zero _ => "0"
  | .finite sign m e _ =>
    match toInt? x with
    | some n =>
      if n.natAbs < tenTo 21 then toString (clampInt64 n)
      else signText sign ++ String.ofList (shortest .up m e).positional
    | none => signText sign ++ String.ofList (shortest .up m e).positional

/-- The other way to write a double: at least one decimal place, and an exponent with its sign for
numbers that would take more than sixteen digits before the point, or five zeros after it. -/
def scientificText (x : Float) : String :=
  match unpack x with
  | .notANumber => "NaN"
  | .infinity sign => signText sign ++ "inf"
  | .zero sign => signText sign ++ "0.0"
  | .finite sign m e _ =>
    let d := shortest .even m e
    let ds := Nat.toDigits 10 d.digits
    let top : Int := d.exponent + ds.length - 1
    let body :=
      if -6 < top && top < 16 then
        if 0 ≤ d.exponent then d.positional ++ ['.', '0'] else d.positional
      else
        ds.take 1 ++ (if ds.length = 1 then [] else '.' :: ds.drop 1) ++
          ['e', if top < 0 then '-' else '+'] ++ Nat.toDigits 10 top.natAbs
    signText sign ++ String.ofList body

end BranchMarkup.Number
