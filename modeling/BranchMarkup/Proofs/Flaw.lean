import Mathlib.Logic.Basic
import BranchMarkup.Proofs.Building
import BranchMarkup.Proofs.Failure
import BranchMarkup.Tree.Parts
/-! What a rewrite can find wrong with a node: the shape of its children, a continuation where none
can stand, a condition that is none. A rewrite that fails names such a node, if it has not come too
deep; one that succeeds has found none in anything it looks into. -/
namespace BranchMarkup

/-- A continuation, and how it is blamed where it cannot stand. -/
def Element.Stray (e : Element) (x : RewriteCause) (s : Span) : Prop :=
  ∃ b, e.branch? = some b ∧ b.continues = true ∧ x = .orphaned b ∧ s = e.span

theorem Element.not_stray {e : Element} {x : RewriteCause} {s : Span}
    (h : ∀ b, e.branch? = some b → b = .when) : ¬ e.Stray x s := by
  rintro ⟨b, hb, hcontinues, -⟩
  rw [h b hb] at hcontinues
  cases hcontinues

namespace Chain

/-- The nearest significant child before a place is a link that carries a condition. -/
def isAnchored (before : List Child) : Bool :=
  ((before.reverse.find? Child.isSignificant).bind Child.branch?).any Branch.tests

/-- A continuation in a child list that follows no link with a condition. As in `check`, `last` is
the branch of the nearest significant child before the list. -/
inductive Orphans : Option Branch → List Child → RewriteCause → Span → Prop where
  | here {last e cs x s} : e.Stray x s → last.any Branch.tests = false →
      Orphans last (.element e :: cs) x s
  | later {last c cs x s} : Orphans (if c.isSignificant then c.branch? else last) cs x s →
      Orphans last (c :: cs) x s

variable {x : RewriteCause} {s : Span} {last : Option Branch} {cs : List Child}

theorem not_orphans_nil : ¬ Orphans last [] x s := nofun

theorem orphans_cons {c : Child} :
    Orphans last (c :: cs) x s ↔
      (∃ e, c = .element e ∧ e.Stray x s ∧ last.any Branch.tests = false) ∨
        Orphans (if c.isSignificant then c.branch? else last) cs x s := by
  constructor
  · rintro (⟨he, ht⟩ | h)
    · exact .inl ⟨_, rfl, he, ht⟩
    · exact .inr h
  · rintro (⟨e, rfl, he, ht⟩ | h)
    · exact .here he ht
    · exact .later h

theorem Orphans.congr {last' : Option Branch} (h : Orphans last cs x s)
    (hlast : last.any Branch.tests = last'.any Branch.tests) : Orphans last' cs x s := by
  induction h generalizing last' with
  | here he ht => exact .here he (hlast.symm.trans ht)
  | later _ ih =>
    refine .later (ih ?_)
    split
    · rfl
    · exact hlast

theorem orphans_filter : Orphans last (cs.filter Child.isSignificant) x s ↔ Orphans last cs x s := by
  induction cs generalizing last with
  | nil => rfl
  | cons c cs ih =>
    cases hc : c.isSignificant with
    | true => rw [List.filter_cons_of_pos hc, orphans_cons, orphans_cons, ih]
    | false =>
      rw [List.filter_cons_of_neg (by simp [hc]), ih, orphans_cons]
      have hne : ∀ e, c ≠ .element e := by
        rintro e rfl
        cases hc
      simp [hne, hc]

theorem Orphans.of_takeLinks (h : Orphans none (takeLinks cs).2 x s) (last : Option Branch) :
    Orphans last cs x s := by
  fun_induction takeLinks cs generalizing last with
  | case1 => exact absurd h not_orphans_nil
  | case2 e cs hb links left heq ih =>
    rw [heq] at ih
    exact .later (ih h _)
  | case3 e cs hb => exact .later (h.congr (by simp [Child.isSignificant, Child.branch?, Child.element?, hb, Branch.tests]))
  | case4 e cs hnext hlast =>
    cases h with
    | here he _ =>
      obtain ⟨b, hb, hcontinues, -⟩ := he
      cases b with
      | when => cases hcontinues
      | elseWhen => exact absurd hb hnext
      | otherwise => exact absurd hb hlast
    | later h => exact .later h
  | case5 c cs hne hc =>
    cases h with
    | here => exact absurd rfl (hne _)
    | later h => exact .later (by simpa [hc] using h)
  | case6 c cs hne hc links left heq ih =>
    rw [heq] at ih
    cases h with
    | here => exact absurd rfl (hne _)
    | later h =>
      rw [if_neg hc] at h
      exact .later (ih h _)

theorem not_orphans_of_check (h : check last cs = .ok ()) : ¬ Orphans last cs x s := by
  intro ho
  induction ho with
  | here he ht =>
    obtain ⟨b, hb, hcontinues, -⟩ := he
    simp [check, Child.branch?, Child.element?, hb, hcontinues, ht] at h
  | @later last c cs _ _ _ ih =>
    apply ih
    rw [check] at h
    split at h
    · next hb => rwa [hb]
    · next b hb =>
      split at h
      · cases h
      · rwa [if_pos (Child.isSignificant_of_branch? hb), hb]

theorem orphans_of_check {y : RewriteError} (h : check last cs = .error y) :
    Orphans last cs y.cause y.span := by
  induction cs generalizing last with
  | nil => cases h
  | cons c cs ih =>
    rw [check] at h
    split at h
    · next hb => exact .later (by simpa [hb] using ih h)
    · next b hb =>
      split at h
      · next hlast =>
        cases h
        obtain ⟨e, rfl, he⟩ := Child.branch?_eq_some.1 hb
        rw [Bool.and_eq_true, Bool.not_eq_true'] at hlast
        exact .here ⟨b, he, hlast.1, rfl, rfl⟩ hlast.2
      · refine .later ?_
        rw [if_pos (Child.isSignificant_of_branch? hb), hb]
        exact ih h

/-- The branch of the nearest significant child before a place, or else `last`. -/
def nearest (last : Option Branch) (before : List Child) : Option Branch :=
  (before.reverse.find? Child.isSignificant).elim last Child.branch?

theorem nearest_cons {c : Child} :
    nearest last (c :: cs) = nearest (if c.isSignificant then c.branch? else last) cs := by
  unfold nearest
  rw [List.reverse_cons, List.find?_append]
  cases cs.reverse.find? Child.isSignificant with
  | none => cases hc : c.isSignificant <;> simp [hc]
  | some d => rfl

theorem orphans_iff_nearest :
    Orphans last cs x s ↔ ∃ before e after, cs = before ++ .element e :: after ∧ e.Stray x s ∧
      (nearest last before).any Branch.tests = false := by
  constructor
  · intro h
    induction h with
    | here he ht => exact ⟨[], _, _, rfl, he, ht⟩
    | @later last c cs _ _ _ ih =>
      obtain ⟨before, e, after, rfl, he, ht⟩ := ih
      exact ⟨c :: before, e, after, rfl, he, by rwa [nearest_cons]⟩
  · rintro ⟨before, e, after, rfl, he, ht⟩
    induction before generalizing last with
    | nil => exact .here he ht
    | cons c before ih => exact .later (ih (by rwa [nearest_cons] at ht))

theorem orphans_iff :
    Orphans none cs x s ↔ ∃ before e after, cs = before ++ .element e :: after ∧ e.Stray x s ∧
      isAnchored before = false := by
  rw [orphans_iff_nearest]
  have h (before : List Child) : (nearest none before).any Branch.tests = isAnchored before := by
    unfold nearest isAnchored
    cases before.reverse.find? Child.isSignificant <;> rfl
  simp only [h]

end Chain

/-! What is wrong with a node -/

/-- The children of an element or fragment. -/
def TreeNode.children : TreeNode → List Child
  | element e => e.children
  | fragment f => f.children
  | _ => []

/-- What an attribute's value is if it is no condition. -/
def AttrValue.conditionDefect? : AttrValue → Option ConditionDefect
  | .text .. => some .string
  | .container none _ => some .emptyContainer
  | .container (some _) _ => none
  | .element _ => some .element

/-- `n.Breaks x s`: a rule about branches is broken at the node, and `x` at `s` says which and where.
A continuation stands among children, after a link with a condition; a link that needs a condition
has one, bare or an expression in braces. -/
inductive TreeNode.Breaks : TreeNode → RewriteCause → Span → Prop where
  | inExpr {e x s} : e.Stray x s → Breaks (.expr (.element e)) x s
  | inValue {e x s} : e.Stray x s → Breaks (.value (.element e)) x s
  | among {n : TreeNode} {before e after x s} : n.children = before ++ .element e :: after →
      e.Stray x s → Chain.isAnchored before = false → Breaks n x s
  | missing {e b} : e.branch? = some b → b.tests = true → e.find? conditionName = none →
      Breaks (.element e) .missingCondition e.span
  | invalid {e b a v found} : e.branch? = some b → b.tests = true →
      e.find? conditionName = some a → a.value = some v → v.conditionDefect? = some found →
      Breaks (.element e) (.invalidCondition found) v.span

/-- What is wrong with the shape of a node, and where. -/
inductive TreeNode.Defect : TreeNode → ShapeDefect → Span → Prop where
  | element {e x s} : Chain.shapeDefect? e = some (x, s) → Defect (.element e) x s
  | fragment {f s} : Chain.adjacentText? f.children = some s → Defect (.fragment f) .adjacentText s
  | body {e s} : e.branch?.isSome →
      Chain.adjacentText? (e.children.filter Child.isSignificant) = some s →
      Defect (.element e) .adjacentText s

inductive TreeNode.Flaw : TreeNode → RewriteCause → Span → Prop where
  | shape {n : TreeNode} {x s} : n.Defect x s → Flaw n (.malformed x) s
  | chain {n : TreeNode} {x s} : n.Breaks x s → Flaw n x s

theorem TreeNode.Breaks.cause_ne {n : TreeNode} {x : RewriteCause} {s : Span} (h : n.Breaks x s)
    (defect : ShapeDefect) : x ≠ .malformed defect := by
  cases h with
  | inExpr he | inValue he | among _ he =>
    obtain ⟨_, -, -, rfl, -⟩ := he
    simp
  | missing | invalid => simp

/-- Something that a rewrite looks into has a flaw. -/
def TreeNode.HasFlaw (n : TreeNode) (x : RewriteCause) (s : Span) : Prop :=
  ∃ m : TreeNode, m.Within Element.liveAttrs n ∧ m.Flaw x s

section
variable {x : RewriteCause} {s : Span}

theorem TreeNode.hasFlaw_iff {n : TreeNode} :
    n.HasFlaw x s ↔ n.Flaw x s ∨ ∃ l ∈ n.parts Element.liveAttrs, l.HasFlaw x s := by
  constructor
  · rintro ⟨m, hm, hx⟩
    cases hm with
    | self => exact .inl hx
    | part hl hm => exact .inr ⟨_, hl, m, hm, hx⟩
  · rintro (hx | ⟨l, hl, m, hm, hx⟩)
    · exact ⟨n, .self, hx⟩
    · exact ⟨m, .part hl hm, hx⟩

theorem TreeNode.HasFlaw.of_part {l n : TreeNode} (h : l.HasFlaw x s)
    (hl : l ∈ n.parts Element.liveAttrs) : n.HasFlaw x s :=
  TreeNode.hasFlaw_iff.2 (.inr ⟨l, hl, h⟩)

open TreeNode (hasFlaw_iff)

theorem TreeNode.breaks_children {n : TreeNode} (h : Chain.Orphans none n.children x s) :
    n.Breaks x s := by
  obtain ⟨before, e, after, hn, he, ht⟩ := Chain.orphans_iff.1 h
  exact .among hn he ht

theorem Expr.flaw_iff {e : Expr} :
    (TreeNode.expr e).Flaw x s ↔ ∃ elem, e = .element elem ∧ elem.Stray x s := by
  constructor
  · rintro (⟨⟨⟩⟩ | h)
    cases h with
    | inExpr he => exact ⟨_, rfl, he⟩
    | among h => simp [TreeNode.children] at h
  · rintro ⟨elem, rfl, he⟩
    exact .chain (.inExpr he)

theorem AttrValue.flaw_iff {v : AttrValue} :
    (TreeNode.value v).Flaw x s ↔ ∃ elem, v = .element elem ∧ elem.Stray x s := by
  constructor
  · rintro (⟨⟨⟩⟩ | h)
    cases h with
    | inValue he => exact ⟨_, rfl, he⟩
    | among h => simp [TreeNode.children] at h
  · rintro ⟨elem, rfl, he⟩
    exact .chain (.inValue he)

theorem Attribute.not_flaw {a : Attribute} : ¬ (TreeNode.attr a).Flaw x s := by
  rintro (⟨⟨⟩⟩ | h)
  cases h with
  | among h => simp [TreeNode.children] at h

theorem Child.not_flaw {c : Child} : ¬ (TreeNode.child c).Flaw x s := by
  rintro (⟨⟨⟩⟩ | h)
  cases h with
  | among h => simp [TreeNode.children] at h

theorem Fragment.flaw_iff {f : Fragment} :
    (TreeNode.fragment f).Flaw x s ↔
      (x = .malformed .adjacentText ∧ Chain.adjacentText? f.children = some s) ∨
        Chain.Orphans none f.children x s := by
  constructor
  · rintro (⟨⟨⟩⟩ | h)
    · exact .inl ⟨rfl, ‹_›⟩
    · cases h with
      | among h he ht => exact .inr (Chain.orphans_iff.2 ⟨_, _, _, h, he, ht⟩)
  · rintro (⟨rfl, h⟩ | h)
    · exact .shape (.fragment h)
    · exact .chain (TreeNode.breaks_children h)

/-- Where the children are well listed as they stand and the condition is one, only a branch can be
in bad shape, and a continuation astray. -/
theorem Element.flaw_iff {e : Element} (hshape : Chain.shapeDefect? e = none)
    (hcondition : ∀ b, e.branch? = some b → b.tests = true → ∃ test, Chain.condition e = .ok test) :
    (TreeNode.element e).Flaw x s ↔
      (e.branch?.isSome ∧ x = .malformed .adjacentText ∧
        Chain.adjacentText? (e.children.filter Child.isSignificant) = some s) ∨
        Chain.Orphans none e.children x s := by
  constructor
  · rintro (h | h)
    · cases h with
      | element h => cases hshape.symm.trans h
      | body hb h => exact .inl ⟨hb, rfl, h⟩
    · cases h with
      | among h he ht => exact .inr (Chain.orphans_iff.2 ⟨_, _, _, h, he, ht⟩)
      | missing hb ht hnone =>
        obtain ⟨test, h⟩ := hcondition _ hb ht
        simp [Chain.condition, hnone] at h
      | @invalid _ _ a v _ hb ht ha hv hfound =>
        obtain ⟨test, h⟩ := hcondition _ hb ht
        obtain ⟨_, _, _⟩ := a
        cases hv
        rcases v with _ | ⟨_ | _, _⟩ | _
        case container.some => cases hfound
        all_goals simp [Chain.condition, ha] at h
  · rintro (⟨hb, rfl, h⟩ | h)
    · exact .shape (.body hb h)
    · exact .chain (TreeNode.breaks_children h)

/-! Which parts of an expression, a value or a child can have a flaw -/

@[simp] theorem Expr.not_hasFlaw_literal {v : Literal} {span : Span} :
    ¬ (TreeNode.expr (.literal v span)).HasFlaw x s := by
  simp [hasFlaw_iff (n := .expr _), TreeNode.parts, flaw_iff]

@[simp] theorem Expr.not_hasFlaw_ident {name : String} {span : Span} :
    ¬ (TreeNode.expr (.ident name span)).HasFlaw x s := by
  simp [hasFlaw_iff (n := .expr _), TreeNode.parts, flaw_iff]

@[simp] theorem Expr.hasFlaw_member {o : Expr} {p : Spanned String} {span : Span} :
    (TreeNode.expr (.member o p span)).HasFlaw x s ↔ (TreeNode.expr o).HasFlaw x s := by
  simp [hasFlaw_iff (n := .expr (.member ..)), TreeNode.parts, flaw_iff]

@[simp] theorem Expr.hasFlaw_call {c : Expr} {as : List Expr} {span : Span} :
    (TreeNode.expr (.call c as span)).HasFlaw x s ↔
      (TreeNode.expr c).HasFlaw x s ∨ ∃ a ∈ as, (TreeNode.expr a).HasFlaw x s := by
  simp [hasFlaw_iff (n := .expr (.call ..)), TreeNode.parts, flaw_iff]

@[simp] theorem Expr.hasFlaw_unary {op : UnaryOp} {o : Expr} {span : Span} :
    (TreeNode.expr (.unary op o span)).HasFlaw x s ↔ (TreeNode.expr o).HasFlaw x s := by
  simp [hasFlaw_iff (n := .expr (.unary ..)), TreeNode.parts, flaw_iff]

@[simp] theorem Expr.hasFlaw_binary {op : BinaryOp} {y z : Expr} {span : Span} :
    (TreeNode.expr (.binary op y z span)).HasFlaw x s ↔
      (TreeNode.expr y).HasFlaw x s ∨ (TreeNode.expr z).HasFlaw x s := by
  simp [hasFlaw_iff (n := .expr (.binary ..)), TreeNode.parts, flaw_iff]

@[simp] theorem Expr.hasFlaw_conditional {t c a : Expr} {p : Option Provenance} {span : Span} :
    (TreeNode.expr (.conditional t c a p span)).HasFlaw x s ↔
      (TreeNode.expr t).HasFlaw x s ∨ (TreeNode.expr c).HasFlaw x s ∨
        (TreeNode.expr a).HasFlaw x s := by
  simp [hasFlaw_iff (n := .expr (.conditional ..)), TreeNode.parts, flaw_iff]

@[simp] theorem Expr.hasFlaw_element {e : Element} :
    (TreeNode.expr (.element e)).HasFlaw x s ↔ e.Stray x s ∨ (TreeNode.element e).HasFlaw x s := by
  simp [hasFlaw_iff (n := .expr (.element e)), TreeNode.parts, flaw_iff]

@[simp] theorem Expr.hasFlaw_fragment {f : Fragment} :
    (TreeNode.expr (.fragment f)).HasFlaw x s ↔ (TreeNode.fragment f).HasFlaw x s := by
  simp [hasFlaw_iff (n := .expr (.fragment f)), TreeNode.parts, flaw_iff]

theorem Fragment.hasFlaw_iff {f : Fragment} :
    (TreeNode.fragment f).HasFlaw x s ↔ (TreeNode.fragment f).Flaw x s ∨
      ∃ c ∈ f.children, (TreeNode.child c).HasFlaw x s := by
  simp [TreeNode.hasFlaw_iff (n := .fragment f), TreeNode.parts]

theorem Element.hasFlaw_iff {e : Element} :
    (TreeNode.element e).HasFlaw x s ↔ (TreeNode.element e).Flaw x s ∨
      (∃ a ∈ e.liveAttrs, (TreeNode.attr a).HasFlaw x s) ∨
        ∃ c ∈ e.children, (TreeNode.child c).HasFlaw x s := by
  simp [TreeNode.hasFlaw_iff (n := .element e), TreeNode.parts, or_and_right, exists_or]

@[simp] theorem Attribute.hasFlaw_iff {a : Attribute} :
    (TreeNode.attr a).HasFlaw x s ↔ ∃ v ∈ a.value, (TreeNode.value v).HasFlaw x s := by
  rcases a with ⟨_, _ | v, _⟩ <;>
    simp [TreeNode.hasFlaw_iff (n := .attr _), TreeNode.parts, not_flaw]

@[simp] theorem AttrValue.not_hasFlaw_text {t : String} {span : Span} :
    ¬ (TreeNode.value (.text t span)).HasFlaw x s := by
  simp [TreeNode.hasFlaw_iff (n := .value _), TreeNode.parts, flaw_iff]

@[simp] theorem AttrValue.hasFlaw_container {e : Option Expr} {span : Span} :
    (TreeNode.value (.container e span)).HasFlaw x s ↔
      ∃ y ∈ e, (TreeNode.expr y).HasFlaw x s := by
  cases e <;> simp [TreeNode.hasFlaw_iff (n := .value (.container ..)), TreeNode.parts, flaw_iff]

@[simp] theorem AttrValue.hasFlaw_element {e : Element} :
    (TreeNode.value (.element e)).HasFlaw x s ↔ e.Stray x s ∨ (TreeNode.element e).HasFlaw x s := by
  simp [TreeNode.hasFlaw_iff (n := .value (.element e)), TreeNode.parts, flaw_iff]

@[simp] theorem Child.not_hasFlaw_text {t : String} {span : Span} :
    ¬ (TreeNode.child (.text t span)).HasFlaw x s := by
  simp [TreeNode.hasFlaw_iff (n := .child _), TreeNode.parts, not_flaw]

@[simp] theorem Child.hasFlaw_container {e : Option Expr} {span : Span} :
    (TreeNode.child (.container e span)).HasFlaw x s ↔
      ∃ y ∈ e, (TreeNode.expr y).HasFlaw x s := by
  cases e <;> simp [TreeNode.hasFlaw_iff (n := .child (.container ..)), TreeNode.parts, not_flaw]

@[simp] theorem Child.hasFlaw_element {e : Element} :
    (TreeNode.child (.element e)).HasFlaw x s ↔ (TreeNode.element e).HasFlaw x s := by
  simp [TreeNode.hasFlaw_iff (n := .child (.element e)), TreeNode.parts, not_flaw]

@[simp] theorem Child.hasFlaw_fragment {f : Fragment} :
    (TreeNode.child (.fragment f)).HasFlaw x s ↔ (TreeNode.fragment f).HasFlaw x s := by
  simp [TreeNode.hasFlaw_iff (n := .child (.fragment f)), TreeNode.parts, not_flaw]

theorem Child.hasFlaw_alone {c : Child} :
    (TreeNode.expr c.alone).HasFlaw x s ↔
      Chain.Orphans none [c] x s ∨ (TreeNode.child c).HasFlaw x s := by
  rcases c with _ | ⟨_ | e, _⟩ | _ | _ <;>
    simp [Child.alone, Expr.nullAt, Chain.orphans_cons, Chain.not_orphans_nil]

theorem Child.isSignificant_of_hasFlaw {c : Child} (h : (TreeNode.child c).HasFlaw x s) :
    c.isSignificant = true := by
  rcases c with _ | ⟨_ | e, _⟩ | _ | _ <;> simp_all [Child.isSignificant]

end

namespace Chain

variable {x : RewriteCause} {s : Span}

theorem hasFlaw_collapse {cs : List Child} {o : Provenance} :
    (TreeNode.expr (collapse cs o)).HasFlaw x s ↔
      ((x = .malformed .adjacentText ∧ adjacentText? (cs.filter Child.isSignificant) = some s) ∨
        Orphans none cs x s) ∨ ∃ c ∈ cs, (TreeNode.child c).HasFlaw x s := by
  have hmem : (∃ c ∈ cs, (TreeNode.child c).HasFlaw x s) ↔
      ∃ c ∈ cs.filter Child.isSignificant, (TreeNode.child c).HasFlaw x s := by
    constructor
    · rintro ⟨c, hc, h⟩
      exact ⟨c, List.mem_filter.2 ⟨hc, Child.isSignificant_of_hasFlaw h⟩, h⟩
    · rintro ⟨c, hc, h⟩
      exact ⟨c, (List.mem_filter.1 hc).1, h⟩
  rw [hmem, ← orphans_filter]
  unfold collapse
  split
  · next h => simp [h, Expr.nullAt, adjacentText?, not_orphans_nil]
  · next c h => rw [h]; cases c <;> simp [Child.hasFlaw_alone, adjacentText?]
  · next h1 h2 => simp [Fragment.hasFlaw_iff, Fragment.flaw_iff]

theorem hasFlaw_condition {e : Element} {test : Expr} (h : condition e = .ok test) :
    (∃ a ∈ (e.find? conditionName).toList, (TreeNode.attr a).HasFlaw x s) ↔
      (TreeNode.expr test).HasFlaw x s := by
  unfold condition at h
  split at h <;> cases h
  · next heq => simp [heq]
  · next heq => simp [heq]

variable {d : Nat} {e : Element} {test consequent alternate : Expr}

theorem hasFlaw_of_arm (h : arm d e = .ok (test, consequent)) {b : Branch}
    (hb : e.branch? = some b) (ht : b.tests = true) :
    (TreeNode.element e).HasFlaw x s ↔
      (TreeNode.expr test).HasFlaw x s ∨ (TreeNode.expr consequent).HasFlaw x s := by
  obtain ⟨-, hshape, hcond, rfl⟩ := arm_eq_ok.1 h
  have hlive : e.liveAttrs = (e.find? conditionName).toList := by
    simp [Element.liveAttrs, hb, ht]
  rw [Element.hasFlaw_iff, hlive, hasFlaw_condition hcond, hasFlaw_collapse,
    Element.flaw_iff (checkElement_eq_ok.1 hshape) fun _ _ _ => ⟨test, hcond⟩]
  simp [hb, or_left_comm]

theorem hasFlaw_of_lastArm (h : lastArm e = .ok alternate)
    (hb : e.branch? = some .otherwise) :
    (TreeNode.element e).HasFlaw x s ↔ (TreeNode.expr alternate).HasFlaw x s := by
  obtain ⟨hshape, rfl⟩ := lastArm_eq_ok.1 h
  have hlive : e.liveAttrs = [] := by simp [Element.liveAttrs, hb, Branch.tests]
  have hcondition : ∀ b, e.branch? = some b → b.tests = true → ∃ test, condition e = .ok test := by
    intro b hb' ht
    cases hb.symm.trans hb'
    cases ht
  rw [Element.hasFlaw_iff, hlive, hasFlaw_collapse,
    Element.flaw_iff (checkElement_eq_ok.1 hshape) hcondition]
  simp [hb]

theorem Builds.hasFlaw_iff {links built} (h : Builds d e links built) {b : Branch}
    (hb : e.branch? = some b) (ht : b.tests = true) (hl : Links links) :
    (TreeNode.expr built).HasFlaw x s ↔
      ∃ link ∈ e :: links, (TreeNode.element link).HasFlaw x s := by
  induction h generalizing b with
  | last ha => simp [conditional, Expr.nullAt, hasFlaw_of_arm ha hb ht]
  | next ha hlink _ ih =>
    cases hl with
    | next _ hl => simp [conditional, hasFlaw_of_arm ha hb ht, ih hlink rfl hl, or_assoc]
    | last h => cases hlink.symm.trans h
  | otherwise ha hlink hlast =>
    cases hl with
    | next h _ => exact absurd h hlink
    | last h =>
      simp [conditional, hasFlaw_of_arm ha hb ht, hasFlaw_of_lastArm hlast h, or_assoc]

theorem breaks_of_condition {b : Branch} (hb : e.branch? = some b) (ht : b.tests = true)
    {y : RewriteError} (h : condition e = .error y) :
    (TreeNode.element e).Breaks y.cause y.span := by
  unfold condition at h
  split at h <;> cases h
  · next hnone => exact .missing hb ht hnone
  all_goals
    next ha => exact .invalid hb ht ha rfl rfl

theorem defect_of_checkElement {y : RewriteError} (h : checkElement e = .error y) :
    (TreeNode.element e).Flaw y.cause y.span := by
  unfold checkElement at h
  split at h <;> cases h
  exact .shape (.element ‹_›)

theorem flaw_of_checkFragment {f : Fragment} {y : RewriteError} (h : checkFragment f = .error y) :
    (TreeNode.fragment f).Flaw y.cause y.span := by
  unfold checkFragment at h
  split at h <;> cases h
  exact .shape (.fragment ‹_›)

theorem flaw_of_build {links : List Element} {b : Branch} (hb : e.branch? = some b)
    (ht : b.tests = true) {y : RewriteError} (hbuild : (build d e links).result = .error y)
    (hdeep : y.cause ≠ .tooDeep) :
    ∃ link ∈ e :: links, (TreeNode.element link).HasFlaw y.cause y.span := by
  obtain ⟨link, hlink, h⟩ := build_eq_error hbuild
  refine ⟨link, hlink, TreeNode.hasFlaw_iff.2 (.inl ?_)⟩
  rcases h with ⟨hkind, d', h⟩ | h
  · rcases arm_eq_error h with h | h | h
    · exact absurd h hdeep
    · exact defect_of_checkElement h
    · rcases hkind with rfl | hkind
      · exact .chain (breaks_of_condition hb ht h)
      · exact .chain (breaks_of_condition hkind rfl h)
  · exact defect_of_checkElement (lastArm_eq_error.1 h)

end Chain

namespace Rewrite

variable {x : RewriteCause} {s : Span}

/-- Something that a walk from a site looks into has a flaw. -/
def Site.HasFlaw : Site → RewriteCause → Span → Prop
  | expr e, x, s => (TreeNode.expr e).HasFlaw x s
  | all es, x, s => ∃ e ∈ es, (TreeNode.expr e).HasFlaw x s
  | element e, x, s => (TreeNode.element e).HasFlaw x s
  | fragment f, x, s => (TreeNode.fragment f).HasFlaw x s
  | attributes as, x, s => ∃ a ∈ as, (TreeNode.attr a).HasFlaw x s
  | value v, x, s => (TreeNode.value v).HasFlaw x s
  | children cs, x, s => Chain.Orphans none cs x s ∨ ∃ c ∈ cs, (TreeNode.child c).HasFlaw x s

theorem hasFlaw_of_standalone {d : Nat} {e : Element} {built : Expr}
    (hb : e.branch? = some .when) (h : (Chain.build (d + 1) e []).result = .ok built) :
    (TreeNode.expr built).HasFlaw x s ↔ (TreeNode.element e).HasFlaw x s := by
  rw [(Chain.builds_of_build h).hasFlaw_iff hb rfl .none]
  simp

theorem hasFlaw_of_chain {d : Nat} {e : Element} {cs : List Child} {built : Expr}
    (hb : e.branch? = some .when)
    (h : (Chain.build (d + 1) e (Chain.takeLinks cs).1).result = .ok built) :
    (∃ c ∈ Child.element e :: cs, (TreeNode.child c).HasFlaw x s) ↔
      (TreeNode.expr built).HasFlaw x s ∨
        ∃ c ∈ (Chain.takeLinks cs).2, (TreeNode.child c).HasFlaw x s := by
  rw [(Chain.builds_of_build h).hasFlaw_iff hb rfl (Chain.links_takeLinks cs)]
  simp only [List.mem_cons, @Chain.mem_takeLinks _ cs, or_and_right, exists_or,
    exists_eq_left, Child.hasFlaw_element, or_assoc]
  refine or_congr_right (or_congr_left ?_)
  constructor
  · rintro ⟨_, ⟨link, hlink, rfl⟩, h⟩
    exact ⟨link, hlink, Child.hasFlaw_element.1 h⟩
  · rintro ⟨link, hlink, h⟩
    exact ⟨_, ⟨link, hlink, rfl⟩, Child.hasFlaw_element.2 h⟩

theorem Steps.hasFlaw {d m d' n} (h : Steps d m d' n) (hn : n.HasFlaw x s) : m.HasFlaw x s := by
  cases h with
  | member | callee | unary | left | right | test | consequent | alternate | element | fragment
  | valueExpr | valueElement => exact hn.of_part (by simp [TreeNode.parts])
  | «arguments» =>
    obtain ⟨e, he, hn⟩ := hn
    exact hn.of_part (by simp [TreeNode.parts, he])
  | standalone hb h => exact Expr.hasFlaw_element.2 (.inr ((hasFlaw_of_standalone hb h).1 hn))
  | valueStandalone hb h =>
    exact AttrValue.hasFlaw_element.2 (.inr ((hasFlaw_of_standalone hb h).1 hn))
  | first => exact ⟨_, List.mem_cons_self, hn⟩
  | others | otherAttributes =>
    obtain ⟨y, hy, hn⟩ := hn
    exact ⟨y, List.mem_cons_of_mem _ hy, hn⟩
  | attributes hb =>
    obtain ⟨a, ha, hn⟩ := hn
    exact hn.of_part (by simp [TreeNode.parts, Element.liveAttrs, hb, ha])
  | elementChildren | fragmentChildren =>
    rcases hn with ho | ⟨c, hc, hn⟩
    · exact TreeNode.hasFlaw_iff.2 (.inl (.chain (TreeNode.breaks_children ho)))
    · exact hn.of_part (by simp [TreeNode.parts, hc])
  | value => exact ⟨_, List.mem_cons_self, hn.of_part (by simp [TreeNode.parts])⟩
  | childExpr | childFragment | childElement =>
    exact .inr ⟨_, List.mem_cons_self, hn.of_part (by simp [TreeNode.parts])⟩
  | otherChildren hb =>
    rcases hn with ho | ⟨c, hc, hn⟩
    · exact .inl (.later (by simpa [hb] using ho))
    · exact .inr ⟨c, List.mem_cons_of_mem _ hc, hn⟩
  | chain hb h => exact .inr ((hasFlaw_of_chain hb h).2 (.inl hn))
  | afterChain hb =>
    rcases hn with ho | ⟨c, hc, hn⟩
    · exact .inl (.later (ho.of_takeLinks _))
    · exact .inr ⟨c, List.mem_cons_of_mem _ (Chain.mem_takeLinks.2 (.inr hc)), hn⟩

theorem stray_orphan {e : Element} {b : Branch} (hb : e.branch? = some b) (hne : b ≠ .when) :
    e.Stray (orphan b e).cause (orphan b e).span := by
  refine ⟨b, hb, ?_, rfl, rfl⟩
  cases b with
  | when => exact absurd rfl hne
  | elseWhen | otherwise => rfl

theorem Raises.hasFlaw {d n y} (h : Raises d n y) (hdeep : y.cause ≠ .tooDeep) :
    n.HasFlaw y.cause y.span := by
  cases h with
  | conditional | consequent | alternate | elementLevel | fragmentLevel => exact absurd rfl hdeep
  | orphan hb hne => exact Expr.hasFlaw_element.2 (.inl (stray_orphan hb hne))
  | valueOrphan hb hne => exact AttrValue.hasFlaw_element.2 (.inl (stray_orphan hb hne))
  | childOrphan hb hne => exact .inl (.here (stray_orphan hb hne) rfl)
  | standalone hb h =>
    obtain ⟨link, hlink, hx⟩ := Chain.flaw_of_build hb rfl h hdeep
    cases List.mem_singleton.1 hlink
    exact Expr.hasFlaw_element.2 (.inr hx)
  | valueStandalone hb h =>
    obtain ⟨link, hlink, hx⟩ := Chain.flaw_of_build hb rfl h hdeep
    cases List.mem_singleton.1 hlink
    exact AttrValue.hasFlaw_element.2 (.inr hx)
  | element h => exact TreeNode.hasFlaw_iff.2 (.inl (Chain.defect_of_checkElement h))
  | fragment h => exact TreeNode.hasFlaw_iff.2 (.inl (Chain.flaw_of_checkFragment h))
  | @elementChains e _ h =>
    have hbreaks := TreeNode.breaks_children (n := .element e) (Chain.orphans_of_check h)
    exact TreeNode.hasFlaw_iff.2 (.inl (.chain hbreaks))
  | @fragmentChains f _ h =>
    have hbreaks := TreeNode.breaks_children (n := .fragment f) (Chain.orphans_of_check h)
    exact TreeNode.hasFlaw_iff.2 (.inl (.chain hbreaks))
  | chain hb h =>
    obtain ⟨link, hlink, hx⟩ := Chain.flaw_of_build hb rfl h hdeep
    refine .inr ⟨.element link, ?_, Child.hasFlaw_element.2 hx⟩
    rcases List.mem_cons.1 hlink with rfl | hlink
    · exact List.mem_cons_self
    · exact List.mem_cons_of_mem _ (Chain.mem_takeLinks.2 (.inl ⟨link, hlink, rfl⟩))

theorem Fails.hasFlaw {d n y} (h : Fails d n y) (hdeep : y.cause ≠ .tooDeep) :
    n.HasFlaw y.cause y.span := by
  induction h with
  | here h => exact h.hasFlaw hdeep
  | step h _ ih => exact h.hasFlaw (ih hdeep)

/-! What a walk has gone through has no flaw. -/

mutual

theorem Walks.not_hasFlaw {d e k e'} : Walks d e k e' → ¬ (TreeNode.expr e).HasFlaw x s
  | .literal => Expr.not_hasFlaw_literal
  | .ident => by simp
  | .member h | .unary h => by simpa using h.not_hasFlaw
  | .call h hs => by simpa using ⟨h.not_hasFlaw, hs.not_hasFlaw⟩
  | .binary h h' => by simpa using ⟨h.not_hasFlaw, h'.not_hasFlaw⟩
  | .conditional h _ _ h' _ h'' => by
    simpa using ⟨h.not_hasFlaw, h'.not_hasFlaw, h''.not_hasFlaw⟩
  | .element hb h => by
    simpa using ⟨Element.not_stray (by simp [hb]), h.not_hasFlaw hb⟩
  | .standalone hb hbuilt h => by
    rw [Expr.hasFlaw_element, ← hasFlaw_of_standalone hb hbuilt, not_or]
    exact ⟨Element.not_stray (by simp [hb]), h.not_hasFlaw⟩
  | .fragment h => by simpa using h.not_hasFlaw

theorem WalksAll.not_hasFlaw {d es k es'} :
    WalksAll d es k es' → ∀ e ∈ es, ¬ (TreeNode.expr e).HasFlaw x s
  | .nil => nofun
  | .cons h hs => List.forall_mem_cons.2 ⟨h.not_hasFlaw, hs.not_hasFlaw⟩

theorem WalksElement.not_hasFlaw {d e k e'} :
    WalksElement d e k e' → e.branch? = none → ¬ (TreeNode.element e).HasFlaw x s
  | .mk hs _ ha hchains hc, hb => by
    rw [Element.hasFlaw_iff, Element.flaw_iff (Chain.checkElement_eq_ok.1 hs) (by simp [hb])]
    rintro ((⟨h, -⟩ | ho) | ⟨a, hmem, hx⟩ | ⟨c, hmem, hx⟩)
    · simp [hb] at h
    · exact Chain.not_orphans_of_check hchains ho
    · exact ha.not_hasFlaw a (by simpa [Element.liveAttrs, hb] using hmem) hx
    · exact hc.not_hasFlaw c hmem hx

theorem WalksFragment.not_hasFlaw {d f k f'} :
    WalksFragment d f k f' → ¬ (TreeNode.fragment f).HasFlaw x s
  | .mk hs _ hchains hc => by
    rw [Fragment.hasFlaw_iff, Fragment.flaw_iff, Chain.checkFragment_eq_ok.1 hs]
    simpa using ⟨Chain.not_orphans_of_check hchains, hc.not_hasFlaw⟩

theorem WalksAttributes.not_hasFlaw {d as k as'} :
    WalksAttributes d as k as' → ∀ a ∈ as, ¬ (TreeNode.attr a).HasFlaw x s
  | .nil => nofun
  | .bare h => List.forall_mem_cons.2 ⟨by simp, h.not_hasFlaw⟩
  | .valued h hs => List.forall_mem_cons.2 ⟨by simpa using h.not_hasFlaw, hs.not_hasFlaw⟩

theorem WalksValue.not_hasFlaw {d v k v'} :
    WalksValue d v k v' → ¬ (TreeNode.value v).HasFlaw x s
  | .text | .empty => by simp
  | .container h => by simpa using h.not_hasFlaw
  | .element hb h => by
    simpa using ⟨Element.not_stray (by simp [hb]), h.not_hasFlaw hb⟩
  | .standalone hb hbuilt h => by
    rw [AttrValue.hasFlaw_element, ← hasFlaw_of_standalone hb hbuilt, not_or]
    exact ⟨Element.not_stray (by simp [hb]), h.not_hasFlaw⟩

theorem WalksChildren.not_hasFlaw {d cs k cs'} :
    WalksChildren d cs k cs' → ∀ c ∈ cs, ¬ (TreeNode.child c).HasFlaw x s
  | .nil => nofun
  | .text h | .empty h => List.forall_mem_cons.2 ⟨by simp, h.not_hasFlaw⟩
  | .container h hs | .fragment h hs =>
    List.forall_mem_cons.2 ⟨by simpa using h.not_hasFlaw, hs.not_hasFlaw⟩
  | .element hb h hs =>
    List.forall_mem_cons.2 ⟨by simpa using h.not_hasFlaw hb, hs.not_hasFlaw⟩
  | .chain hb hbuilt h hs => by
    intro c hc hx
    rcases (hasFlaw_of_chain hb hbuilt).1 ⟨c, hc, hx⟩ with hx | ⟨c, hc, hx⟩
    · exact h.not_hasFlaw hx
    · exact hs.not_hasFlaw c hc hx

end

theorem WalksStatement.not_hasFlaw {y k y'} (h : WalksStatement y k y') {e : Expr}
    (he : y.expr? = some e) : ¬ (TreeNode.expr e).HasFlaw x s := by
  cases h with
  | imports => cases he
  | binding h | exportDefault h | expr h =>
    cases he
    exact h.not_hasFlaw

theorem WalksStatements.not_hasFlaw {ys k ys'} (h : WalksStatements ys k ys') :
    ∀ y ∈ ys, ∀ e, y.val.expr? = some e → ¬ (TreeNode.expr e).HasFlaw x s := by
  induction h with
  | nil => nofun
  | @removed y _ _ _ hy _ ih =>
    refine List.forall_mem_cons.2 ⟨?_, ih⟩
    intro e he
    cases hval : y.val <;> simp_all [Statement.isSentinelImport, Statement.expr?]
  | kept _ h _ ih => exact List.forall_mem_cons.2 ⟨fun e he => h.not_hasFlaw he, ih⟩

end Rewrite

namespace Program

variable {p : Program}

theorem has_flaw_of_rewrite {y : RewriteError} (h : p.rewrite = .error y)
    (hdeep : y.cause ≠ .tooDeep) : ∃ n, p.Has Element.liveAttrs n ∧ n.Flaw y.cause y.span := by
  obtain ⟨s, hs, e, he, hf⟩ := fails_of_rewrite h
  obtain ⟨n, hn, hx⟩ := hf.hasFlaw hdeep
  exact ⟨n, ⟨s, hs, e, he, hn⟩, hx⟩

theorem not_flaw_of_rewrite {r : Program × Stats} (h : p.rewrite = .ok r) {n : TreeNode}
    (hn : p.Has Element.liveAttrs n) {x : RewriteCause} {s : Span} : ¬ n.Flaw x s := by
  obtain ⟨y, hy, e, he, hw⟩ := hn
  intro hx
  exact (walksStatements_of_rewrite h).2.not_hasFlaw y hy e he ⟨n, hw, hx⟩

end Program
end BranchMarkup
