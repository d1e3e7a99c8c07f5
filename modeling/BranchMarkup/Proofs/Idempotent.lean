import BranchMarkup.Proofs.Failure
import BranchMarkup.Proofs.Rewritten
import BranchMarkup.Proofs.Terminal
/-! A second rewrite. Every derivation is walked, so what a walk leaves behind can be walked again if
it has a derivation of its own; and where there is no branch element a walk changes nothing. -/
namespace BranchMarkup

theorem Element.branches_eq_nil {e : Element} :
    e.branches = [] ↔ e.branch? = none ∧ Attribute.branchesAll e.attrs = [] ∧
      Child.branchesAll e.children = [] := by
  obtain ⟨name, _, _, _, _⟩ := e
  simp [branches, branch?]

theorem Element.branch?_eq_none_of_branches {e : Element} (h : e.branches = []) :
    e.branch? = none :=
  (branches_eq_nil.1 h).1

theorem Fragment.branches_eq (f : Fragment) : f.branches = Child.branchesAll f.children := by
  cases f
  rfl

namespace Child

theorem joinText_eq_cons {s : String} {span : Span} {cs : List Child}
    (h : Chain.adjacentText? (.text s span :: cs) = none) :
    joinText (.text s span) cs = .text s span :: cs := by
  unfold joinText
  split
  · next heq =>
    cases heq
    cases h
  · rfl

theorem branch?_eq_none_of_branches {c : Child} (h : c.branches = []) : c.branch? = none := by
  cases c with
  | element e => exact Element.branch?_eq_none_of_branches h
  | _ => rfl

end Child

namespace Chain

theorem check_eq_ok {last : Option Branch} {cs : List Child} (h : Child.branchesAll cs = []) :
    check last cs = .ok () := by
  induction cs generalizing last with
  | nil => rfl
  | cons c cs ih =>
    obtain ⟨hc, hcs⟩ := List.append_eq_nil_iff.1 h
    simp only [check, Child.branch?_eq_none_of_branches hc]
    exact ih hcs

end Chain

namespace Rewrite

/-! What a walk leaves behind -/

theorem WalksElement.branch?_eq {d e k e'} (h : WalksElement d e k e') : e'.branch? = e.branch? := by
  cases h
  rfl

theorem Walks.isParenthesizedArm_eq {d e k e'} (h : Walks d e k e') :
    isParenthesizedArm e' = isParenthesizedArm e := by
  cases h with
  | element hb h => simp only [isParenthesizedArm, h.branch?_eq]
  | standalone hb hbuilt h =>
    obtain ⟨_, _, _, rfl⟩ := (Chain.builds_of_build hbuilt).eq_conditional
    cases h
    simp [isParenthesizedArm, hb]
  | _ => rfl

theorem ArmLevel.again {d da : Nat} {a a' : Expr} {k : Stats} (hl : ArmLevel d a da)
    (h : Walks da a k a') : ArmLevel d a' da := by
  cases hl with
  | bare hp => exact .bare (h.isParenthesizedArm_eq.trans hp)
  | parenthesized hp hd => exact .parenthesized (h.isParenthesizedArm_eq.trans hp) hd

/-- A child that a walk leaves as it is. -/
def Stays (d : Nat) : Child → Prop
  | .text .. | .container none _ => True
  | .container (some e) _ => Walks d e 0 e
  | .element e => e.branch? = none ∧ WalksElement d e 0 e
  | .fragment f => WalksFragment d f 0 f

theorem walksChildren_self {d : Nat} {cs : List Child} (h : ∀ c ∈ cs, Stays d c)
    (hadjacent : Chain.adjacentText? cs = none) : WalksChildren d cs 0 cs := by
  induction cs with
  | nil => exact .nil
  | cons c cs ih =>
    rw [List.forall_mem_cons] at h
    have hcs := ih h.2 (Chain.adjacentText?_cons_eq_none.1 hadjacent).2
    cases c with
    | text =>
      have hjoin := Child.joinText_eq_cons hadjacent
      exact hjoin ▸ .text hcs
    | container e =>
      cases e with
      | none => exact .empty hcs
      | some e => exact .container h.1 hcs
    | element => exact .element h.1.1 h.1.2 hcs
    | fragment => exact .fragment h.1 hcs

mutual

theorem Walks.again {d e k e'} : Walks d e k e' → Walks d e' 0 e'
  | .literal => .literal
  | .ident => .ident
  | .member h => .member h.again
  | .call h hs => .call h.again hs.again
  | .unary h => .unary h.again
  | .binary h h' => .binary h.again h'.again
  | .conditional h hd hl h' hl' h'' =>
    .conditional h.again hd (hl.again h') h'.again (hl'.again h'') h''.again
  | .element hb h => .element (h.branch?_eq.trans hb) h.again
  | .standalone _ _ h => h.again
  | .fragment h => .fragment h.again

theorem WalksAll.again {d es k es'} : WalksAll d es k es' → WalksAll d es' 0 es'
  | .nil => .nil
  | .cons h hs => .cons h.again hs.again

theorem WalksElement.again {d e k e'} : WalksElement d e k e' → WalksElement d e' 0 e'
  | .mk hshape hd ha _ hcs => by
    obtain ⟨hstay, hadjacent⟩ := hcs.again
    refine .mk ?_ hd ha.again (Chain.check_eq_ok hcs.branches_eq_nil)
      (walksChildren_self hstay hadjacent)
    rw [Chain.checkElement_eq_ok, Chain.shapeDefect?_eq_none] at hshape ⊢
    obtain ⟨hname, hclosing, -⟩ := hshape
    refine ⟨hname, ?_, hadjacent⟩
    intro hself
    obtain rfl := hclosing hself
    cases hcs
    rfl

theorem WalksFragment.again {d f k f'} : WalksFragment d f k f' → WalksFragment d f' 0 f'
  | .mk _ hd _ hcs =>
    have ⟨hstay, hadjacent⟩ := hcs.again
    .mk (Chain.checkFragment_eq_ok.2 hadjacent) hd (Chain.check_eq_ok hcs.branches_eq_nil)
      (walksChildren_self hstay hadjacent)

theorem WalksAttributes.again {d as k as'} :
    WalksAttributes d as k as' → WalksAttributes d as' 0 as'
  | .nil => .nil
  | .bare hs => .bare hs.again
  | .valued h hs => .valued h.again hs.again

theorem WalksValue.again {d v k v'} : WalksValue d v k v' → WalksValue d v' 0 v'
  | .text => .text
  | .empty => .empty
  | .container h | .standalone _ _ h => .container h.again
  | .element hb h => .element (h.branch?_eq.trans hb) h.again

/-- The children that are left stay as they are, and no texts among them touch. -/
theorem WalksChildren.again {d cs k cs'} :
    WalksChildren d cs k cs' → (∀ c ∈ cs', Stays d c) ∧ Chain.adjacentText? cs' = none
  | .nil => ⟨nofun, rfl⟩
  | .text h =>
    ⟨Child.forall_mem_joinText trivial (fun _ _ _ => trivial) h.again.1,
      Child.adjacentText?_joinText h.again.2⟩
  | .empty h => ⟨List.forall_mem_cons.2 ⟨trivial, h.again.1⟩,
      Chain.adjacentText?_cons_eq_none.2 ⟨nofun, h.again.2⟩⟩
  | .container h hs | .chain _ _ h hs => ⟨List.forall_mem_cons.2 ⟨h.again, hs.again.1⟩,
      Chain.adjacentText?_cons_eq_none.2 ⟨nofun, hs.again.2⟩⟩
  | .fragment h hs => ⟨List.forall_mem_cons.2 ⟨h.again, hs.again.1⟩,
      Chain.adjacentText?_cons_eq_none.2 ⟨nofun, hs.again.2⟩⟩
  | .element hb h hs => ⟨List.forall_mem_cons.2 ⟨⟨h.branch?_eq.trans hb, h.again⟩, hs.again.1⟩,
      Chain.adjacentText?_cons_eq_none.2 ⟨nofun, hs.again.2⟩⟩

end

/-! Where there is no branch element a walk changes nothing. -/

mutual

theorem Walks.eq_self {d e k e'} : Walks d e k e' → e.branches = [] → e' = e ∧ k = 0
  | .literal, _ | .ident, _ => ⟨rfl, rfl⟩
  | .member h, he => by
    obtain ⟨rfl, rfl⟩ := h.eq_self he
    exact ⟨rfl, rfl⟩
  | .call h hs, he => by
    obtain ⟨hcallee, hargs⟩ := List.append_eq_nil_iff.1 he
    obtain ⟨rfl, rfl⟩ := h.eq_self hcallee
    obtain ⟨rfl, rfl⟩ := hs.eq_self hargs
    exact ⟨rfl, rfl⟩
  | .unary h, he => by
    obtain ⟨rfl, rfl⟩ := h.eq_self he
    exact ⟨rfl, rfl⟩
  | .binary h h', he => by
    obtain ⟨hlhs, hrhs⟩ := List.append_eq_nil_iff.1 he
    obtain ⟨rfl, rfl⟩ := h.eq_self hlhs
    obtain ⟨rfl, rfl⟩ := h'.eq_self hrhs
    exact ⟨rfl, rfl⟩
  | .conditional h _ _ h' _ h'', he => by
    obtain ⟨hboth, halternate⟩ := List.append_eq_nil_iff.1 he
    obtain ⟨htest, hconsequent⟩ := List.append_eq_nil_iff.1 hboth
    obtain ⟨rfl, rfl⟩ := h.eq_self htest
    obtain ⟨rfl, rfl⟩ := h'.eq_self hconsequent
    obtain ⟨rfl, rfl⟩ := h''.eq_self halternate
    exact ⟨rfl, rfl⟩
  | .element _ h, he => by
    obtain ⟨rfl, rfl⟩ := h.eq_self he
    exact ⟨rfl, rfl⟩
  | .standalone hb .., he => by cases hb.symm.trans (Element.branch?_eq_none_of_branches he)
  | .fragment h, he => by
    obtain ⟨rfl, rfl⟩ := h.eq_self he
    exact ⟨rfl, rfl⟩

theorem WalksAll.eq_self {d es k es'} :
    WalksAll d es k es' → Expr.branchesAll es = [] → es' = es ∧ k = 0
  | .nil, _ => ⟨rfl, rfl⟩
  | .cons h hs, hes => by
    obtain ⟨hfirst, hrest⟩ := List.append_eq_nil_iff.1 hes
    obtain ⟨rfl, rfl⟩ := h.eq_self hfirst
    obtain ⟨rfl, rfl⟩ := hs.eq_self hrest
    exact ⟨rfl, rfl⟩

/-- The walk itself sees to it that no texts touch. -/
theorem WalksElement.eq_self {d e k e'} :
    WalksElement d e k e' → e.branches = [] → e' = e ∧ k = 0
  | .mk hshape _ ha _ hcs, he => by
    rw [Chain.checkElement_eq_ok, Chain.shapeDefect?_eq_none] at hshape
    obtain ⟨-, hattrs, hchildren⟩ := Element.branches_eq_nil.1 he
    obtain ⟨rfl, rfl⟩ := ha.eq_self hattrs
    obtain ⟨rfl, rfl⟩ := hcs.eq_self hchildren hshape.2.2
    exact ⟨rfl, rfl⟩

theorem WalksFragment.eq_self {d f k f'} :
    WalksFragment d f k f' → f.branches = [] → f' = f ∧ k = 0
  | .mk hshape _ _ hcs, hf => by
    obtain ⟨rfl, rfl⟩ := hcs.eq_self hf (Chain.checkFragment_eq_ok.1 hshape)
    exact ⟨rfl, rfl⟩

theorem WalksAttributes.eq_self {d as k as'} :
    WalksAttributes d as k as' → Attribute.branchesAll as = [] → as' = as ∧ k = 0
  | .nil, _ => ⟨rfl, rfl⟩
  | .bare hs, has => by
    obtain ⟨rfl, rfl⟩ := hs.eq_self has
    exact ⟨rfl, rfl⟩
  | .valued h hs, has => by
    obtain ⟨hfirst, hrest⟩ := List.append_eq_nil_iff.1 has
    obtain ⟨rfl, rfl⟩ := h.eq_self hfirst
    obtain ⟨rfl, rfl⟩ := hs.eq_self hrest
    exact ⟨rfl, rfl⟩

theorem WalksValue.eq_self {d v k v'} : WalksValue d v k v' → v.branches = [] → v' = v ∧ k = 0
  | .text, _ | .empty, _ => ⟨rfl, rfl⟩
  | .container h, hv | .element _ h, hv => by
    obtain ⟨rfl, rfl⟩ := h.eq_self hv
    exact ⟨rfl, rfl⟩
  | .standalone hb .., hv => by cases hb.symm.trans (Element.branch?_eq_none_of_branches hv)

theorem WalksChildren.eq_self {d cs k cs'} : WalksChildren d cs k cs' →
    Child.branchesAll cs = [] → Chain.adjacentText? cs = none → cs' = cs ∧ k = 0
  | .nil, _, _ => ⟨rfl, rfl⟩
  | .text h, hcs, hadjacent => by
    obtain ⟨rfl, rfl⟩ := h.eq_self hcs (Chain.adjacentText?_cons_eq_none.1 hadjacent).2
    exact ⟨Child.joinText_eq_cons hadjacent, rfl⟩
  | .empty h, hcs, hadjacent => by
    obtain ⟨rfl, rfl⟩ := h.eq_self hcs (Chain.adjacentText?_cons_eq_none.1 hadjacent).2
    exact ⟨rfl, rfl⟩
  | .container h hs, hcs, hadjacent | .fragment h hs, hcs, hadjacent
  | .element _ h hs, hcs, hadjacent => by
    obtain ⟨hfirst, hrest⟩ := List.append_eq_nil_iff.1 hcs
    obtain ⟨rfl, rfl⟩ := h.eq_self hfirst
    obtain ⟨rfl, rfl⟩ := hs.eq_self hrest (Chain.adjacentText?_cons_eq_none.1 hadjacent).2
    exact ⟨rfl, rfl⟩
  | .chain hb .., hcs, _ => by
    obtain ⟨hc, -⟩ := List.append_eq_nil_iff.1 hcs
    cases hb.symm.trans (Element.branch?_eq_none_of_branches hc)

end

/-! Nor does it fail but for the shape or the depth of the tree. -/

/-- The branch elements that a walk from a site can come to. -/
def Site.branches : Site → List Span
  | expr e => e.branches
  | all es => Expr.branchesAll es
  | element e => e.branches
  | fragment f => f.branches
  | attributes as => Attribute.branchesAll as
  | value v => v.branches
  | children cs => Child.branchesAll cs

theorem Steps.branches_eq_nil {d m d' n} (h : Steps d m d' n) (hm : m.branches = []) :
    n.branches = [] := by
  cases h with
  | standalone hb | valueStandalone hb =>
    cases hb.symm.trans (Element.branch?_eq_none_of_branches hm)
  | chain hb | afterChain hb =>
    obtain ⟨hc, -⟩ := List.append_eq_nil_iff.1 hm
    cases hb.symm.trans (Element.branch?_eq_none_of_branches hc)
  | attributes => exact (Element.branches_eq_nil.1 hm).2.1
  | elementChildren => exact (Element.branches_eq_nil.1 hm).2.2
  | fragmentChildren => rwa [Site.branches, Fragment.branches_eq] at hm
  | _ =>
    simp_all [Site.branches, Expr.branches, Expr.branchesAll, Attribute.branchesAll,
      Attribute.branches, AttrValue.branches, Child.branchesAll, Child.branches]

/-- A tree that no text can be read as, or one that goes too deep. -/
def isShapeOrDepth : RewriteCause → Bool
  | .malformed _ | .tooDeep => true
  | _ => false

theorem Raises.isShapeOrDepth {d n x} (h : Raises d n x) (hn : n.branches = []) :
    isShapeOrDepth x.cause = true := by
  cases h with
  | orphan hb | standalone hb | valueOrphan hb | valueStandalone hb =>
    cases hb.symm.trans (Element.branch?_eq_none_of_branches hn)
  | childOrphan hb | chain hb =>
    obtain ⟨hc, -⟩ := List.append_eq_nil_iff.1 hn
    cases hb.symm.trans (Element.branch?_eq_none_of_branches hc)
  | element h =>
    unfold Chain.checkElement at h
    split at h <;> cases h
    rfl
  | fragment h =>
    unfold Chain.checkFragment at h
    split at h <;> cases h
    rfl
  | elementChains h => cases (Chain.check_eq_ok (Element.branches_eq_nil.1 hn).2.2).symm.trans h
  | fragmentChains h =>
    rw [Site.branches, Fragment.branches_eq] at hn
    cases (Chain.check_eq_ok hn).symm.trans h
  | _ => rfl

theorem Fails.isShapeOrDepth {d n x} (h : Fails d n x) (hn : n.branches = []) :
    Rewrite.isShapeOrDepth x.cause = true := by
  induction h with
  | here h => exact h.isShapeOrDepth hn
  | step h _ ih => exact ih (h.branches_eq_nil hn)

/-! Statements and programs -/

theorem WalksStatement.again {x k x'} (h : WalksStatement x k x') : WalksStatement x' 0 x' := by
  cases h with
  | imports => exact .imports
  | binding h => exact .binding h.again
  | exportDefault h => exact .exportDefault h.again
  | expr h => exact .expr h.again

theorem WalksStatements.again {xs k xs'} (h : WalksStatements xs k xs') :
    WalksStatements xs' 0 xs' := by
  induction h with
  | nil => exact .nil
  | removed _ _ ih => exact ih
  | @kept x _ _ _ v _ hx h _ ih =>
    exact .kept (x := ⟨v, x.span⟩) (h.isSentinelImport_eq.trans hx) h.again ih

theorem WalksStatement.eq_self {x k x'} (h : WalksStatement x k x')
    (hx : ∀ e, x.expr? = some e → e.branches = []) : x' = x ∧ k = 0 := by
  cases h with
  | imports => exact ⟨rfl, rfl⟩
  | binding h | exportDefault h | expr h =>
    obtain ⟨rfl, rfl⟩ := h.eq_self (hx _ rfl)
    exact ⟨rfl, rfl⟩

theorem WalksStatements.eq_self {xs k xs'} (h : WalksStatements xs k xs')
    (hsentinel : ∀ x ∈ xs, x.val.isSentinelImport = false)
    (hxs : ∀ x ∈ xs, ∀ e, x.val.expr? = some e → e.branches = []) : xs' = xs ∧ k = 0 := by
  induction h with
  | nil => exact ⟨rfl, rfl⟩
  | removed hx =>
    rw [List.forall_mem_cons] at hsentinel
    cases hx.symm.trans hsentinel.1
  | kept _ h _ ih =>
    rw [List.forall_mem_cons] at hsentinel hxs
    obtain ⟨hval, rfl⟩ := h.eq_self hxs.1
    obtain ⟨rfl, rfl⟩ := ih hsentinel.2 hxs.2
    exact ⟨by rw [hval], rfl⟩

end Rewrite

namespace Program

theorem branches_of_mem {p : Program} (h : p.branches = []) :
    ∀ s ∈ p.statements, ∀ e, s.val.expr? = some e → e.branches = [] := by
  intro s hs e he
  have := List.flatMap_eq_nil_iff.1 h s hs
  simpa [he] using this

/-- Without branch elements and sentinel imports there is nothing to do: a rewrite gives back what
it was given, or it blames the shape or the depth of the tree. And what a rewrite has left behind, a
rewrite leaves as it is. -/
theorem rewrite_idempotent (p : Program) :
    (p.branches = [] → (∀ s ∈ p.statements, s.val.isSentinelImport = false) →
      p.rewrite = .ok (p, .zero) ∨
        ∃ x, p.rewrite = .error x ∧ ((∃ defect, x.cause = .malformed defect) ∨ x.cause = .tooDeep)) ∧
    ∀ q counted, p.rewrite = .ok (q, counted) → q.rewrite = .ok (q, .zero) := by
  constructor
  · intro hbranches hsentinel
    have hplain := branches_of_mem hbranches
    cases hr : p.rewrite with
    | ok r =>
      obtain ⟨q, counted⟩ := r
      obtain ⟨hq, hw⟩ := rewrite_eq_ok_iff.1 hr
      obtain ⟨hstatements, rfl⟩ := hw.eq_self hsentinel hplain
      rw [hstatements] at hq
      exact .inl (by rw [hq]; rfl)
    | error x =>
      refine .inr ⟨x, rfl, ?_⟩
      obtain ⟨s, hs, e, he, hf⟩ := fails_of_rewrite hr
      have hcause := hf.isShapeOrDepth (hplain s hs e he)
      unfold Rewrite.isShapeOrDepth at hcause
      split at hcause
      · next defect h => exact .inl ⟨defect, h⟩
      · next h => exact .inr h
      · cases hcause
  · intro q counted hr
    obtain ⟨-, hw⟩ := rewrite_eq_ok_iff.1 hr
    exact rewrite_eq_ok_iff.2 ⟨rfl, hw.again⟩

/-- `<If condition={a}><If condition={b}>x</If></If>` -/
def nestedSample : Program :=
  let tested (name : String) : Attribute :=
    ⟨⟨conditionName, .zero⟩, some (.container (some (.ident name .zero)) .zero), .zero⟩
  let inner : Element := ⟨⟨"If", .zero⟩, [tested "b"], [.text "x" .zero], false, .zero⟩
  let outer : Element := ⟨⟨"If", .zero⟩, [tested "a"], [.element inner], false, .zero⟩
  ⟨"a.jsx", [⟨.expr (.element outer), .zero⟩], []⟩

/-- The conditional in the arm of another is walked at the level of the `If` it was. -/
theorem rewrite_idempotent_nested :
    ∃ q, nestedSample.rewrite = .ok (q, ⟨2, 0, 0⟩) ∧ q.rewrite = .ok (q, .zero) ∧
      q.branches = [] ∧ (∀ s ∈ q.statements, s.val.isSentinelImport = false) ∧
      (q.rewrite = .ok (q, .zero) ∨ ∃ x, q.rewrite = .error x ∧
        ((∃ defect, x.cause = .malformed defect) ∨ x.cause = .tooDeep)) := by
  have hrun : nestedSample.rewrite.toOption.any (fun r => r.2 = ⟨2, 0, 0⟩ ∧ r.1.branches = [] ∧
      ∀ s ∈ r.1.statements, s.val.isSentinelImport = false) = true := by
    cbv
  obtain ⟨⟨q, counted⟩, h, hresult⟩ := exists_ok_of_any hrun
  obtain ⟨rfl, hbranches, hsentinel⟩ := of_decide_eq_true hresult
  exact ⟨q, h, (rewrite_idempotent nestedSample).2 q _ h, hbranches, hsentinel,
    (rewrite_idempotent q).1 hbranches hsentinel⟩

end Program

end BranchMarkup
