/-! Sets of characters given by ranges of code points. -/
namespace BranchMarkup.Text

/-- The first and the last code point of each range. -/
abbrev Ranges := List (Nat × Nat)

def inRanges (ranges : Ranges) (c : Char) : Bool :=
  ranges.any fun (lo, hi) => lo ≤ c.toNat && c.toNat ≤ hi

end BranchMarkup.Text
