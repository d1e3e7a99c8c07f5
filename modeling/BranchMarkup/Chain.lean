import BranchMarkup.Chain.Shape
/-! A chain: an element that opens it and the links that continue it among the siblings that follow.
Building turns it into nested conditionals; nothing is evaluated and nothing is copied. -/
namespace BranchMarkup

/-- How deep the printed form of a rewritten program may go. -/
class NestingLimit where
  /-- `none` is no limit. -/
  levels : Option Nat

namespace NestingLimit

instance : NestingLimit := ⟨some maxNesting⟩

def Admits [NestingLimit] (depth : Nat) : Prop :=
  match levels with
  | none => True
  | some limit => depth ≤ limit

instance [NestingLimit] (depth : Nat) : Decidable (Admits depth) := by
  unfold Admits
  split <;> infer_instance

end NestingLimit

namespace Child

/-- A child as the only thing a branch holds. Text stands as written: the blank rules of markup do
not apply to it. -/
def alone : Child → Expr
  | .text s span => .literal (.string s) span
  | .container none span => .nullAt span
  | .container (some e) _ => e
  | .element e => .element e
  | .fragment f => .fragment f

end Child

namespace Chain

/-- What a branch stands for: nothing is null, one child is itself, and more are a fragment that
remembers the branch. -/
def collapse (children : List Child) (origin : Provenance) : Expr :=
  match children.filter Child.isSignificant with
  | [] => .nullAt origin.origin
  | [c] => c.alone
  | kept => .fragment ⟨kept, some origin, origin.origin⟩

/-- The expression of the condition; a bare attribute is true. -/
def condition (e : Element) : Except RewriteError Expr :=
  let fail (cause : RewriteCause) (span : Span) := .error ⟨cause, span, some e.excerpt, none⟩
  match e.find? conditionName with
  | none => fail .missingCondition e.span
  | some ⟨_, none, span⟩ => .ok (.literal (.bool true) span)
  | some ⟨_, some (.container (some test) _), _⟩ => .ok test
  | some ⟨_, some (.container none span), _⟩ => fail (.invalidCondition .emptyContainer) span
  | some ⟨_, some (.text _ span), _⟩ => fail (.invalidCondition .string) span
  | some ⟨_, some (.element inner), _⟩ => fail (.invalidCondition .element) inner.span

/-- The links at the head of a sibling list, ignorable children aside, and the siblings that are
left without them. An `Else` ends the chain. -/
def takeLinks : List Child → List Element × List Child
  | [] => ([], [])
  | .element e :: cs =>
    match e.branch? with
    | some .elseWhen =>
      let (links, left) := takeLinks cs
      (e :: links, left)
    | some .otherwise => ([e], cs)
    | _ => ([], .element e :: cs)
  | c :: cs =>
    if c.isSignificant then ([], c :: cs)
    else
      let (links, left) := takeLinks cs
      (links, c :: left)

def leftAfter : Nat → List Child → List Bool
  | 0, cs => cs.map fun _ => true
  | _ + 1, [] => []
  | taken + 1, c :: cs =>
    if c.isSignificant then false :: leftAfter taken cs
    else true :: leftAfter (taken + 1) cs

def origin (e : Element) : Provenance := ⟨e.span, e.branch?.getD .when⟩

def arm [NestingLimit] (depth : Nat) (e : Element) : Except RewriteError (Expr × Expr) := do
  if ¬ NestingLimit.Admits depth then throw ⟨.tooDeep, e.span, some e.excerpt, none⟩
  checkElement e
  let test ← condition e
  return (test, collapse e.children (origin e))

def lastArm (e : Element) : Except RewriteError Expr :=
  (checkElement e).map fun _ => collapse e.children ⟨e.span, .otherwise⟩

def conditional (e : Element) (test consequent alternate : Expr) : Expr :=
  .conditional test consequent alternate (some (origin e)) e.span

structure Built where
  reached : Nat
  result : Except RewriteError Expr

/-- The next link stands inside parentheses in the alternate, two levels deeper; a chain that passes
the limit fails before a deeper link is looked at. Where no link is left the alternate is null. -/
def build [NestingLimit] (depth : Nat) (e : Element) (links : List Element) : Built :=
  match arm depth e, links with
  | .error x, _ => ⟨0, .error x⟩
  | .ok (test, consequent), [] => ⟨0, .ok (conditional e test consequent (.nullAt e.span.after))⟩
  | .ok (test, consequent), link :: links =>
    let alternate :=
      if link.branch? = some .elseWhen then build (depth + 2) link links
      else ⟨0, lastArm link⟩
    ⟨alternate.reached + 1, alternate.result.map (conditional e test consequent)⟩

end Chain
end BranchMarkup
