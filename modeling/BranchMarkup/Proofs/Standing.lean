import Mathlib.Logic.Relation
import BranchMarkup.Proofs.Failure
import BranchMarkup.Proofs.Nesting
/-! The level that a walk counts at a part of a program, and the level at which a reader of the
result comes to what the part was rewritten to. `Enters` says where a reader goes in printed form, as
`Steps` says it of a walk; by steps the reader is never at a lower level than the walk. -/
namespace BranchMarkup

theorem Piece.le_groupLevels (needed : Bool) (levels : Nat) :
    levels ≤ groupLevels needed levels := by
  unfold groupLevels
  split <;> omega

theorem Piece.le_of_groupLevels {needed : Bool} {d levels n : Nat}
    (h : d + groupLevels needed levels ≤ n) : d + levels ≤ n := by
  have := le_groupLevels needed levels
  omega

theorem Piece.groupLevels_add (needed : Bool) (l levels : Nat) :
    groupLevels needed l + levels = l + groupLevels needed levels := by
  unfold groupLevels
  split <;> omega

namespace Rewrite

/-- `Enters l m l' n`: a reader that is at `m` at level `l` goes to `n` at level `l'`. -/
inductive Enters : Nat → Site → Nat → Site → Prop where
  | member {l o p s} :
      Enters l (.expr (.member o p s)) (Piece.groupLevels (o.precedence < 15) l) (.expr o)
  | callee {l c as s} :
      Enters l (.expr (.call c as s)) (Piece.groupLevels (c.precedence < 15) l) (.expr c)
  | arguments {l c as s} : Enters l (.expr (.call c as s)) l (.all as)
  | unary {l op o s} :
      Enters l (.expr (.unary op o s)) (Piece.groupLevels (o.precedence < 14) (l + 1)) (.expr o)
  | left {l op x y s} :
      Enters l (.expr (.binary op x y s)) (Piece.groupLevels (x.precedence < op.power) l) (.expr x)
  | right {l op x y s} :
      Enters l (.expr (.binary op x y s)) (Piece.groupLevels (y.precedence < op.rightPower) l)
        (.expr y)
  | test {l t c a p s} :
      Enters l (.expr (.conditional t c a p s)) (Piece.groupLevels (t.precedence < 2) l) (.expr t)
  | consequent {l t c a p s} :
      Enters l (.expr (.conditional t c a p s)) (Piece.groupLevels (c.precedence < 2) (l + 1))
        (.expr c)
  | alternate {l t c a p s} :
      Enters l (.expr (.conditional t c a p s)) (Piece.groupLevels (a.precedence < 2) (l + 1))
        (.expr a)
  | element {l e} : Enters l (.expr (.element e)) l (.element e)
  | fragment {l f} : Enters l (.expr (.fragment f)) l (.fragment f)
  | first {l e es} : Enters l (.all (e :: es)) l (.expr e)
  | others {l e es} : Enters l (.all (e :: es)) l (.all es)
  | attributes {l e} : Enters l (.element e) (l + 1) (.attributes e.attrs)
  | elementChildren {l e} : Enters l (.element e) (l + 1) (.children e.children)
  | fragmentChildren {l f} : Enters l (.fragment f) (l + 1) (.children f.children)
  | value {l n v s as} : Enters l (.attributes (⟨n, some v, s⟩ :: as)) l (.value v)
  | otherAttributes {l a as} : Enters l (.attributes (a :: as)) l (.attributes as)
  | valueExpr {l e s} : Enters l (.value (.container (some e) s)) l (.expr e)
  | valueElement {l e} : Enters l (.value (.element e)) l (.element e)
  | childExpr {l e s cs} : Enters l (.children (.container (some e) s :: cs)) l (.expr e)
  | childFragment {l f cs} : Enters l (.children (.fragment f :: cs)) l (.fragment f)
  | childElement {l e cs} : Enters l (.children (.element e :: cs)) l (.element e)
  | otherChildren {l c cs} : Enters l (.children (c :: cs)) l (.children cs)
  /-- The end of a text is a text. -/
  | restOfText {l t t' s s' cs} :
      Enters l (.children (.text t s :: cs)) l (.children (.text t' s' :: cs))

def Site.levels : Site → Nat
  | .expr e => e.levels
  | .all es => Expr.levelsAll es
  | .element e => e.levels
  | .fragment f => f.levels
  | .attributes as => Attribute.levelsAll as
  | .value v => v.levels
  | .children cs => Child.levelsAll cs

theorem Attribute.levelsAll_le (a : Attribute) (as : List Attribute) :
    Attribute.levelsAll as ≤ Attribute.levelsAll (a :: as) := by
  obtain ⟨n, v, s⟩ := a
  cases v with
  | none => exact Nat.le_of_eq (by rw [Attribute.levelsAll])
  | some v =>
    rw [Attribute.levelsAll]
    exact Nat.le_max_right ..

theorem Enters.levels_le {l l' : Nat} {m n : Site} (h : Enters l m l' n) :
    l' + n.levels ≤ l + m.levels := by
  cases h with
  | attributes | elementChildren =>
    rename_i e
    obtain ⟨name, attrs, children, comments, span⟩ := e
    simp only [Site.levels, Element.levels]
    omega
  | fragmentChildren =>
    rename_i f
    obtain ⟨children, comments, span⟩ := f
    simp only [Site.levels, Fragment.levels]
    omega
  | otherAttributes => exact Nat.add_le_add_left (Attribute.levelsAll_le _ _) _
  | unary =>
    simp only [Site.levels, Expr.levels]
    rw [Piece.groupLevels_add]
    omega
  | _ =>
    simp only [Site.levels, Expr.levels, Expr.levelsAll, Attribute.levelsAll, AttrValue.levels,
      Child.levels, Child.levelsAll, Piece.groupLevels_add]
    omega

/-- From a level and a site there, by any number of steps. -/
def Stepwise (r : Nat → Site → Nat → Site → Prop) : Nat × Site → Nat × Site → Prop :=
  Relation.ReflTransGen fun a b => r a.1 a.2 b.1 b.2

theorem enters_joinText {l : Nat} {t : String} {s : Span} {cs : List Child} :
    Stepwise Enters (l, .children (Child.joinText (.text t s) cs)) (l, .children cs) := by
  unfold Child.joinText
  split
  · next h =>
    cases h
    exact .single .restOfText
  · exact .single .otherChildren

theorem Stepwise.levels_le {a b : Nat × Site} (h : Stepwise Enters a b) :
    b.1 + b.2.levels ≤ a.1 + a.2.levels := by
  induction h with
  | refl => exact le_rfl
  | tail _ hstep ih => exact hstep.levels_le.trans ih

/-- What a site is rewritten to. -/
inductive Becomes [NestingLimit] : Nat → Site → Site → Prop where
  | expr {d e k e'} : Walks d e k e' → Becomes d (.expr e) (.expr e')
  | all {d es k es'} : WalksAll d es k es' → Becomes d (.all es) (.all es')
  | element {d e k e'} : WalksElement d e k e' → Becomes d (.element e) (.element e')
  | fragment {d f k f'} : WalksFragment d f k f' → Becomes d (.fragment f) (.fragment f')
  | attributes {d as k as'} : WalksAttributes d as k as' →
      Becomes d (.attributes as) (.attributes as')
  | value {d v k v'} : WalksValue d v k v' → Becomes d (.value v) (.value v')
  | children {d cs k cs'} : WalksChildren d cs k cs' → Becomes d (.children cs) (.children cs')

section
variable {source : NestingLimit}

theorem Walks.of_conditional {d t c a p s k e'} (h : Walks d (.conditional t c a p s) k e') :
    e'.precedence < 2 ∧ 1 ≤ e'.levels := by
  cases h
  exact ⟨Nat.lt_succ_self 1, by rw [Expr.levels]; omega⟩

theorem Walks.precedence_lt {d e k e'} (h : Walks d e k e')
    (harm : Rewrite.isParenthesizedArm e = true) : e'.precedence < 2 := by
  cases h with
  | conditional => exact Nat.lt_succ_self 1
  | standalone _ hbuilt h =>
    obtain ⟨test, consequent, alternate, rfl⟩ := (Chain.builds_of_build hbuilt).eq_conditional
    exact h.of_conditional.1
  | element hb => simp [Rewrite.isParenthesizedArm, hb] at harm
  | _ => simp [Rewrite.isParenthesizedArm] at harm

theorem ArmLevel.le_groupLevels {d l da : Nat} {a a' : Expr} {k : Stats} (hl : ArmLevel d a da)
    (h : Walks da a k a') (hd : d ≤ l) : da ≤ Piece.groupLevels (a'.precedence < 2) l := by
  cases hl with
  | bare => exact hd.trans (Piece.le_groupLevels _ _)
  | parenthesized harm =>
    have hlow := h.precedence_lt harm
    simp only [Piece.groupLevels, hlow, decide_true, ↓reduceIte]
    omega

end

section
variable [NestingLimit]

theorem ArmLevel.eq {d d' d'' : Nat} {a : Expr} (h : ArmLevel d a d') (h' : ArmLevel d a d'') :
    d' = d'' := by
  cases h <;> cases h' <;> simp_all

/-- A reader that is at `m'` at level `l` comes to what `n` is rewritten to, and at no lower level
than `d`. -/
def Meets (l : Nat) (m' : Site) (d : Nat) (n : Site) : Prop :=
  ∃ n' l', Becomes d n n' ∧ Stepwise Enters (l, m') (l', n') ∧ d ≤ l'

theorem Becomes.meets {d l l' : Nat} {m' n n' : Site} (h : Becomes d n n')
    (henters : Enters l m' l' n') (hle : d ≤ l') : Meets l m' d n :=
  ⟨n', l', h, .single henters, hle⟩

section
variable {d d' l : Nat} {n : Site}

theorem Walks.step {e e' : Expr} {k : Stats} (h : Walks d e k e') (hs : Steps d (.expr e) d' n)
    (hl : d ≤ l) : Meets l (.expr e') d' n := by
  have hgroup (needed : Bool) : d ≤ Piece.groupLevels needed l := hl.trans (Piece.le_groupLevels _ _)
  have hgroup' (needed : Bool) : d ≤ Piece.groupLevels needed (l + 1) :=
    (Nat.le_succ_of_le hl).trans (Piece.le_groupLevels _ _)
  cases h with
  | literal | ident => cases hs
  | member h =>
    cases hs with
    | member => exact Becomes.meets (.expr h) .member (hgroup _)
  | call h hall =>
    cases hs with
    | callee => exact Becomes.meets (.expr h) .callee (hgroup _)
    | arguments => exact Becomes.meets (.all hall) .arguments hl
  | unary h =>
    cases hs with
    | unary => exact Becomes.meets (.expr h) .unary (hgroup' _)
  | binary h h' =>
    cases hs with
    | left => exact Becomes.meets (.expr h) .left (hgroup _)
    | right => exact Becomes.meets (.expr h') .right (hgroup _)
  | conditional h _ hlevel h' hlevel' h'' =>
    cases hs with
    | test => exact Becomes.meets (.expr h) .test (hgroup _)
    | consequent harm =>
      obtain rfl := harm.eq hlevel
      exact Becomes.meets (.expr h') .consequent (hlevel.le_groupLevels h' (Nat.succ_le_succ hl))
    | alternate harm =>
      obtain rfl := harm.eq hlevel'
      exact Becomes.meets (.expr h'') .alternate (hlevel'.le_groupLevels h'' (Nat.succ_le_succ hl))
  | element hb h =>
    cases hs with
    | element => exact Becomes.meets (.element h) .element hl
    | standalone hw => simp [hb] at hw
  | standalone hb hbuilt h =>
    -- The conditional that is built stands in the place of the element, so no step is read.
    cases hs with
    | element hw => simp [hb] at hw
    | standalone _ hbuilt' =>
      rw [hbuilt] at hbuilt'
      cases hbuilt'
      exact ⟨_, _, .expr h, .refl, hl⟩
  | fragment h =>
    cases hs with
    | fragment => exact Becomes.meets (.fragment h) .fragment hl

theorem WalksAll.step {es es' : List Expr} {k : Stats} (h : WalksAll d es k es')
    (hs : Steps d (.all es) d' n) (hl : d ≤ l) : Meets l (.all es') d' n := by
  cases h with
  | nil => cases hs
  | cons h hall =>
    cases hs with
    | first => exact Becomes.meets (.expr h) .first hl
    | others => exact Becomes.meets (.all hall) .others hl

theorem WalksElement.step {e e' : Element} {k : Stats} (h : WalksElement d e k e')
    (hs : Steps d (.element e) d' n) (hl : d ≤ l) : Meets l (.element e') d' n := by
  cases h with
  | mk _ _ ha _ hc =>
    cases hs with
    | attributes => exact Becomes.meets (.attributes ha) .attributes (Nat.succ_le_succ hl)
    | elementChildren => exact Becomes.meets (.children hc) .elementChildren (Nat.succ_le_succ hl)

theorem WalksFragment.step {f f' : Fragment} {k : Stats} (h : WalksFragment d f k f')
    (hs : Steps d (.fragment f) d' n) (hl : d ≤ l) : Meets l (.fragment f') d' n := by
  cases h with
  | mk _ _ _ hc =>
    cases hs with
    | fragmentChildren => exact Becomes.meets (.children hc) .fragmentChildren (Nat.succ_le_succ hl)

theorem WalksAttributes.step {as as' : List Attribute} {k : Stats} (h : WalksAttributes d as k as')
    (hs : Steps d (.attributes as) d' n) (hl : d ≤ l) : Meets l (.attributes as') d' n := by
  cases h with
  | nil => cases hs
  | bare h =>
    cases hs with
    | otherAttributes => exact Becomes.meets (.attributes h) .otherAttributes hl
  | valued h h' =>
    cases hs with
    | value => exact Becomes.meets (.value h) .value hl
    | otherAttributes => exact Becomes.meets (.attributes h') .otherAttributes hl

theorem WalksValue.step {v v' : AttrValue} {k : Stats} (h : WalksValue d v k v')
    (hs : Steps d (.value v) d' n) (hl : d ≤ l) : Meets l (.value v') d' n := by
  cases h with
  | text | empty => cases hs
  | container h =>
    cases hs with
    | valueExpr => exact Becomes.meets (.expr h) .valueExpr hl
  | element hb h =>
    cases hs with
    | valueElement => exact Becomes.meets (.element h) .valueElement hl
    | valueStandalone hw => simp [hb] at hw
  | standalone hb hbuilt h =>
    cases hs with
    | valueElement hw => simp [hb] at hw
    | valueStandalone _ hbuilt' =>
      rw [hbuilt] at hbuilt'
      cases hbuilt'
      exact Becomes.meets (.expr h) .valueExpr hl

theorem WalksChildren.step {cs cs' : List Child} {k : Stats} (h : WalksChildren d cs k cs')
    (hs : Steps d (.children cs) d' n) (hl : d ≤ l) : Meets l (.children cs') d' n := by
  cases h with
  | nil => cases hs
  | text h =>
    cases hs with
    | otherChildren => exact ⟨_, _, .children h, enters_joinText, hl⟩
  | empty h =>
    cases hs with
    | otherChildren => exact Becomes.meets (.children h) .otherChildren hl
  | container h h' =>
    cases hs with
    | childExpr => exact Becomes.meets (.expr h) .childExpr hl
    | otherChildren => exact Becomes.meets (.children h') .otherChildren hl
  | fragment h h' =>
    cases hs with
    | childFragment => exact Becomes.meets (.fragment h) .childFragment hl
    | otherChildren => exact Becomes.meets (.children h') .otherChildren hl
  | element hb h h' =>
    cases hs with
    | childElement => exact Becomes.meets (.element h) .childElement hl
    | otherChildren => exact Becomes.meets (.children h') .otherChildren hl
    | chain hw | afterChain hw => simp [hb] at hw
  | chain hb hbuilt h h' =>
    -- A chain is read as one container, and what stands after it as what stands after that.
    cases hs with
    | childElement hw => simp [hb] at hw
    | otherChildren hw =>
      rw [show Child.branch? (.element _) = _ from hb] at hw
      cases hw
    | chain _ hbuilt' =>
      rw [hbuilt] at hbuilt'
      cases hbuilt'
      exact Becomes.meets (.expr h) .childExpr hl
    | afterChain => exact Becomes.meets (.children h') .otherChildren hl

theorem Becomes.step {m m' : Site} (h : Becomes d m m') (hs : Steps d m d' n) (hl : d ≤ l) :
    Meets l m' d' n := by
  cases h with
  | expr h => exact h.step hs hl
  | all h => exact h.step hs hl
  | element h => exact h.step hs hl
  | fragment h => exact h.step hs hl
  | attributes h => exact h.step hs hl
  | value h => exact h.step hs hl
  | children h => exact h.step hs hl

end

/-- Wherever a walk comes, a reader of the result comes to what was made there, and at no lower
level. -/
theorem Becomes.stepwise {m m' : Site} {d : Nat} (h : Becomes d m m') {l : Nat} (hl : d ≤ l)
    {b : Nat × Site} (hs : Stepwise Steps (d, m) b) : Meets l m' b.1 b.2 := by
  induction hs with
  | refl => exact ⟨m', l, h, .refl, hl⟩
  | tail _ hstep ih =>
    obtain ⟨n', l', hn, henters, hle⟩ := ih
    obtain ⟨o', l'', ho, hrest, hle'⟩ := hn.step hstep hle
    exact ⟨o', l'', ho, henters.trans hrest, hle'⟩

theorem WalksStatement.expr? {x x' : Statement} {k : Stats} (h : WalksStatement x k x') {e : Expr}
    (he : x.expr? = some e) : ∃ k e', x'.expr? = some e' ∧ Walks 0 e k e' := by
  cases h with
  | imports => cases he
  | binding h | exportDefault h | expr h =>
    cases he
    exact ⟨_, _, rfl, h⟩

theorem WalksStatements.expr? {xs xs' : List (Spanned Statement)} {k : Stats}
    (h : WalksStatements xs k xs') {x : Spanned Statement} (hx : x ∈ xs) {e : Expr}
    (he : x.val.expr? = some e) :
    ∃ x' ∈ xs', ∃ k e', x'.val.expr? = some e' ∧ Walks 0 e k e' := by
  induction h with
  | nil => cases hx
  | removed hs _ ih =>
    rcases List.mem_cons.1 hx with rfl | hx
    · rw [expr?_of_isSentinelImport hs] at he
      cases he
    · exact ih hx
  | kept _ h _ ih =>
    rcases List.mem_cons.1 hx with rfl | hx
    · exact ⟨_, List.mem_cons_self, h.expr? he⟩
    · obtain ⟨x', hx', hw⟩ := ih hx
      exact ⟨x', List.mem_cons_of_mem _ hx', hw⟩

end

end Rewrite

namespace Program

open Rewrite

/-- A walk that no limit stops comes to the site at that level. -/
def WalkedAt (p : Program) (d : Nat) (n : Site) : Prop :=
  ∃ x ∈ p.statements, ∃ e, x.val.expr? = some e ∧ Stepwise (@Steps ⟨none⟩) (0, .expr e) (d, n)

/-- A reader of the printed form comes to the site at that level. -/
def ReadAt (p : Program) (l : Nat) (n : Site) : Prop :=
  ∃ x ∈ p.statements, ∃ e, x.val.expr? = some e ∧ Stepwise Enters (0, .expr e) (l, n)

end Program
end BranchMarkup
