import BranchMarkup.Span
/-! The three branch elements of a conditional chain. -/
namespace BranchMarkup

inductive Branch where
  | when
  | elseWhen
  | otherwise
deriving DecidableEq, Repr

namespace Branch

def tag : Branch → String
  | when => "If"
  | elseWhen => "ElseIf"
  | otherwise => "Else"

/-- Tags are matched exactly, letter case included. -/
def ofTag? (name : String) : Option Branch :=
  if name = "If" then some when
  else if name = "ElseIf" then some elseWhen
  else if name = "Else" then some otherwise
  else none

@[simp] theorem ofTag?_tag (b : Branch) : ofTag? b.tag = some b := by cases b <;> rfl

def shown (b : Branch) : String := "<" ++ b.tag ++ ">"

/-- Makes sense only after an earlier link of its chain. -/
def continues : Branch → Bool
  | when => false
  | elseWhen => true
  | otherwise => true

/-- Carries a condition, so another link may follow. -/
def tests : Branch → Bool
  | when => true
  | elseWhen => true
  | otherwise => false

end Branch

/-- Ties a node that a rewrite made to the branch element it stands for. -/
structure Provenance where
  origin : Span
  branch : Branch
deriving DecidableEq, Repr

end BranchMarkup
