import BranchMarkup.Number.Power
/-! The shortest decimal that reads back as a given double. A double `m * 2 ^ q` is what every
real of an interval around it rounds to, ends included if `m` is even. On the grid of `p`
significant digits only the two neighbours of the value need a look; the first `p` that hits gives
the answer. -/
namespace BranchMarkup.Number

structure Decimal where
  digits : Nat
  exponent : Int
deriving DecidableEq, Repr

def digitCount (n : Nat) : Nat := (Nat.toDigits 10 n).length

def floorLog10 (num den : Nat) : Int :=
  let guess : Int := digitCount num - digitCount den
  if den * tenTo guess.toNat ≤ num * tenTo (-guess).toNat then guess else guess - 1

inductive Tie where
  | up
  | even
deriving DecidableEq, Repr

/-- The point of the grid of step `10 ^ k` in the interval of `m * 2 ^ q` that is nearest to it. -/
def onGrid? (tie : Tie) (m : Nat) (q k : Int) : Option Nat :=
  -- All is counted in quarters of the last binary place, over a common denominator.
  let step := 4 * tenTo k.toNat * twoTo (-q).toNat
  let unit := tenTo (-k).toNat * twoTo q.toNat
  let value := 4 * m * unit
  let low := (4 * m - if m = twoTo 52 && -1074 < q then 1 else 2) * unit
  let high := (4 * m + 2) * unit
  let inside (x : Nat) : Bool := if m % 2 = 0 then low ≤ x && x ≤ high else low < x && x < high
  let below := value / step
  let up := (value - below * step) * 2
  let roundUp := step < up || (step = up && (tie = .up || below % 2 = 1))
  match inside (below * step), inside ((below + 1) * step) with
  | true, true => some (if roundUp then below + 1 else below)
  | true, false => some below
  | false, true => some (below + 1)
  | false, false => none

def Decimal.normalize (d : Decimal) : Decimal :=
  if h : d.digits ≠ 0 ∧ d.digits % 10 = 0 then
    Decimal.normalize ⟨d.digits / 10, d.exponent + 1⟩
  else d
termination_by d.digits
decreasing_by omega

/-- Seventeen digits always suffice. -/
def shortest (tie : Tie) (m : Nat) (q : Int) : Decimal :=
  let top := floorLog10 (m * twoTo q.toNat) (twoTo (-q).toNat)
  let hit := (List.range 17).findSome? fun (p : Nat) =>
    (onGrid? tie m q (top - p)).map fun digits => (⟨digits, top - p⟩ : Decimal)
  (hit.getD ⟨m, 0⟩).normalize

end BranchMarkup.Number
