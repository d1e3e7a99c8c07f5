import BranchMarkup.Proofs.Flaw
import BranchMarkup.Proofs.Reading.Legible
/-! When a rewrite finds the shape of a tree at fault: child lists are looked at as they stand, and
those of a branch once more without the ignorable children. -/
namespace BranchMarkup

namespace Program

variable {p : Program}

theorem has_defect_of_rewrite {y : RewriteError} {x : ShapeDefect} (h : p.rewrite = .error y)
    (hx : y.cause = .malformed x) : ∃ n, p.Has Element.liveAttrs n ∧ n.Defect x y.span := by
  obtain ⟨n, hn, hd⟩ := has_flaw_of_rewrite h (by simp [hx])
  refine ⟨n, hn, ?_⟩
  rw [hx] at hd
  cases hd with
  | shape hd => exact hd
  | chain hd => exact absurd rfl (hd.cause_ne x)

theorem not_defect_of_rewrite {r : Program × Stats} (h : p.rewrite = .ok r) {n : TreeNode}
    (hn : p.Has Element.liveAttrs n) {x : ShapeDefect} {s : Span} : ¬ n.Defect x s :=
  fun hd => not_flaw_of_rewrite h hn (.shape hd)

end Program

theorem TreeNode.Legible.shapeDefect? {e : Element} (h : (TreeNode.element e).Legible) :
    Chain.shapeDefect? e = none := by
  obtain ⟨hname, hclosing, htexts⟩ := h
  refine Chain.shapeDefect?_eq_none.2 ⟨?_, hclosing, htexts⟩
  intro h
  exact hname.ne_nil (by rw [h]; rfl)

/-- In a text that reads, only the children of a branch can be in bad shape. -/
theorem Program.defect_of_parse {name source : String} {p : Program}
    (h : Program.parse name source = .ok p) {n : TreeNode} (hn : p.Has Element.liveAttrs n)
    {x : ShapeDefect} {s : Span} (hd : n.Defect x s) :
    x = .adjacentText ∧ ∃ e, n = .element e ∧ e.branch?.isSome ∧
      Chain.adjacentText? (e.children.filter Child.isSignificant) = some s := by
  obtain ⟨y, hy, e, he, hw⟩ := hn.mono Element.liveAttrs_subset
  have hlegible : n.Legible := (Parse.legible_of_parse h y hy).expr he n hw
  cases hd with
  | element hx => cases hx.symm.trans hlegible.shapeDefect?
  | fragment hx => cases hx.symm.trans hlegible
  | body hb hx => exact ⟨rfl, _, rfl, hb, hx⟩

/-- Of a text that reads, a rewrite blames the shape only for two texts in a branch that touch once
the ignorable children between them are left out, and it names the second of the two. Where there
are such texts in anything a rewrite looks into, it never succeeds. -/
theorem Program.rewrite_malformed_of_parse {name source : String} {p : Program}
    (h : Program.parse name source = .ok p) :
    (∀ y x, p.rewrite = .error y → y.cause = .malformed x →
      x = .adjacentText ∧ ∃ e, p.Has Element.liveAttrs (.element e) ∧ e.branch?.isSome ∧
        Chain.adjacentText? (e.children.filter Child.isSignificant) = some y.span) ∧
    ∀ e s, p.Has Element.liveAttrs (.element e) → e.branch?.isSome →
      Chain.adjacentText? (e.children.filter Child.isSignificant) = some s →
        ∃ y, p.rewrite = .error y := by
  constructor
  · intro y x hy hx
    obtain ⟨n, hn, hd⟩ := has_defect_of_rewrite hy hx
    obtain ⟨hadjacent, e, rfl, hb, htexts⟩ := defect_of_parse h hn hd
    exact ⟨hadjacent, e, hn, hb, htexts⟩
  · intro e s he hb htexts
    cases hr : p.rewrite with
    | error y => exact ⟨y, rfl⟩
    | ok r => exact absurd (.body hb htexts) (not_defect_of_rewrite hr he)

/-- Why a text that reads cannot be rewritten. -/
def Program.causeOf? (name source : String) : Option RewriteCause :=
  match Program.parse name source with
  | .ok p =>
    match p.rewrite with
    | .ok _ => none
    | .error y => some y.cause
  | .error _ => none

theorem Program.causeOf?_eq_some {name source : String} {cause : RewriteCause} :
    causeOf? name source = some cause ↔
      ∃ p y, Program.parse name source = .ok p ∧ p.rewrite = .error y ∧ y.cause = cause := by
  unfold causeOf?
  cases Program.parse name source with
  | error fs => simp
  | ok p => cases h : p.rewrite <;> simp [h]

/-- Two texts of a branch with nothing but a comment between them. -/
theorem Program.rewrite_malformed_of_parse_comment :
    ∃ p y, Program.parse "a.jsx" "<If condition=\x7ba\x7d>x\x7b/* c */\x7dy</If>" = .ok p ∧
      p.rewrite = .error y ∧ y.cause = .malformed .adjacentText ∧
      ∃ e, p.Has Element.liveAttrs (.element e) ∧ e.branch?.isSome ∧
        Chain.adjacentText? (e.children.filter Child.isSignificant) = some y.span := by
  have h : causeOf? "a.jsx" "<If condition=\x7ba\x7d>x\x7b/* c */\x7dy</If>" =
      some (.malformed .adjacentText) := by
    decide +kernel
  obtain ⟨p, y, hp, hy, hx⟩ := causeOf?_eq_some.1 h
  exact ⟨p, y, hp, hy, hx, ((rewrite_malformed_of_parse hp).1 y _ hy hx).2⟩

end BranchMarkup
