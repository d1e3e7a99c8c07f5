import BranchMarkup.Number.Power
/-! Doubles as a sign, a natural mantissa and a power of two. -/
namespace BranchMarkup.Number

open Float.Model (UnpackedFloat)
open Float.Model.UnpackedFloat (Sign)

def unpack (x : Float) : UnpackedFloat := x.toModel.unpack

/-- The double nearest to `mantissa * 2 ^ exponent`, a half going to the even neighbour. -/
def ofDyadic (sign : Sign) (mantissa : Nat) (exponent : Int) : Float :=
  .ofModel (.pack (if mantissa = 0 then .zero sign else .round .binary64 sign mantissa exponent))

def nan : Float := .ofModel (.pack .notANumber)

def infinity (sign : Sign) : Float := .ofModel (.pack (.infinity sign))

/-- The remainder of a division that rounds its quotient towards zero; it is exact, and has the sign
of the dividend. -/
def remainder (a b : Float) : Float :=
  match unpack a, unpack b with
  | .notANumber, _ | _, .notANumber | .infinity _, _ | _, .zero _ => nan
  | .zero _, _ | _, .infinity _ => a
  | .finite sign m e _, .finite _ n f _ =>
    let low := min e f
    ofDyadic sign ((m * twoTo (e - low).toNat) % (n * twoTo (f - low).toNat)) low

def toInt? (x : Float) : Option Int :=
  match unpack x with
  | .notANumber | .infinity _ => none
  | .zero _ => some 0
  | .finite sign m e _ =>
    if 0 ≤ e then some (sign.apply (m * twoTo e.toNat : Nat))
    else if m % twoTo (-e).toNat = 0 then some (sign.apply (m / twoTo (-e).toNat : Nat))
    else none

end BranchMarkup.Number
