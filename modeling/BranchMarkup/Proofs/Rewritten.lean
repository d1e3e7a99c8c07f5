import BranchMarkup.Proofs.Building
import BranchMarkup.Proofs.Legible
import BranchMarkup.Proofs.Walk
/-! A rewrite of what can be read back can be read back: words and numbers stay as they are, and
texts that come to touch become one. -/
namespace BranchMarkup

open Scanner (IsWord IsTagName IsNumber)

/-- What can be read back, of a node alone, whatever the shape of its child list. -/
def TreeNode.Worded : TreeNode → Prop
  | element e => IsTagName e.name.val.toList
  | fragment _ => True
  | n => n.Legible

theorem TreeNode.Legible.worded {n : TreeNode} (h : n.Legible) : n.Worded := by
  cases n with
  | element => exact h.1
  | fragment => trivial
  | _ => exact h

/-- All words of a tree are such as can be read back. -/
def TreeNode.AllWorded (n : TreeNode) : Prop := n.Throughout TreeNode.Worded

theorem TreeNode.allWorded_of_parts {n : TreeNode} (hn : n.Worded)
    (h : ∀ l ∈ n.parts Element.attrs, l.AllWorded) : n.AllWorded :=
  throughout_iff.2 ⟨hn, h⟩

theorem Expr.allWorded_nullAt {span : Span} : (TreeNode.expr (.nullAt span)).AllWorded :=
  TreeNode.allWorded_of_parts trivial nofun

theorem Child.allWorded_alone {c : Child} (h : (TreeNode.child c).AllWorded) :
    (TreeNode.expr c.alone).AllWorded := by
  cases c with
  | text s span => exact TreeNode.allWorded_of_parts trivial nofun
  | container e span =>
    cases e with
    | none => exact Expr.allWorded_nullAt
    | some e => exact h.part (List.mem_singleton_self _)
  | element e | fragment f =>
    refine TreeNode.allWorded_of_parts trivial ?_
    exact fun l hl => h.part hl

namespace Chain

theorem allWorded_collapse {cs : List Child} {o : Provenance}
    (h : ∀ c ∈ cs, (TreeNode.child c).AllWorded) : (TreeNode.expr (collapse cs o)).AllWorded := by
  unfold collapse
  split
  · exact Expr.allWorded_nullAt
  · next c hc =>
    apply Child.allWorded_alone
    apply h
    have hmem : c ∈ cs.filter Child.isSignificant := by rw [hc]; exact List.mem_singleton_self c
    exact (List.mem_filter.1 hmem).1
  · have hkept : (TreeNode.fragment
        ⟨cs.filter Child.isSignificant, some o, o.origin⟩).AllWorded := by
      refine TreeNode.allWorded_of_parts trivial ?_
      intro l hl
      obtain ⟨c, hc, rfl⟩ := List.mem_map.1 hl
      exact h c (List.mem_filter.1 hc).1
    refine TreeNode.allWorded_of_parts trivial ?_
    intro l hl
    obtain rfl := List.mem_singleton.1 hl
    exact hkept

theorem allWorded_condition {e : Element} {test : Expr} (h : condition e = .ok test)
    (he : (TreeNode.element e).AllWorded) : (TreeNode.expr test).AllWorded := by
  unfold condition at h
  split at h <;> cases h
  · exact TreeNode.allWorded_of_parts trivial nofun
  · next name span span' heq =>
    have hattr := List.mem_of_find?_eq_some heq
    have ha := he.part (List.mem_append_left _ (List.mem_map.2 ⟨_, hattr, rfl⟩))
    have hv := ha.part (List.mem_singleton_self (TreeNode.value (.container (some test) span)))
    exact hv.part (List.mem_singleton_self _)

theorem allWorded_body {e : Element} {o : Provenance} (he : (TreeNode.element e).AllWorded) :
    (TreeNode.expr (collapse e.children o)).AllWorded := by
  apply allWorded_collapse
  intro c hc
  exact he.part (List.mem_append_right _ (List.mem_map.2 ⟨c, hc, rfl⟩))

theorem allWorded_conditional {e : Element} {test consequent alternate : Expr}
    (ht : (TreeNode.expr test).AllWorded) (hc : (TreeNode.expr consequent).AllWorded)
    (ha : (TreeNode.expr alternate).AllWorded) :
    (TreeNode.expr (conditional e test consequent alternate)).AllWorded := by
  refine TreeNode.allWorded_of_parts trivial ?_
  simp only [conditional, TreeNode.parts, List.forall_mem_cons]
  exact ⟨ht, hc, ha, List.forall_mem_nil _⟩

/-- The conditional of a chain has its words from the links. -/
theorem Builds.allWorded [NestingLimit] {d e links built} (h : Builds d e links built)
    (hlinks : ∀ link ∈ e :: links, (TreeNode.element link).AllWorded) :
    (TreeNode.expr built).AllWorded := by
  induction h with
  | last ha =>
    obtain ⟨-, -, ht, rfl⟩ := arm_eq_ok.1 ha
    have he := hlinks _ List.mem_cons_self
    exact allWorded_conditional (allWorded_condition ht he) (allWorded_body he)
      Expr.allWorded_nullAt
  | next ha _ _ ih =>
    obtain ⟨-, -, ht, rfl⟩ := arm_eq_ok.1 ha
    have he := hlinks _ List.mem_cons_self
    exact allWorded_conditional (allWorded_condition ht he) (allWorded_body he)
      (ih fun link hl => hlinks link (List.mem_cons_of_mem _ hl))
  | otherwise ha _ hlast =>
    obtain ⟨-, -, ht, rfl⟩ := arm_eq_ok.1 ha
    obtain ⟨-, rfl⟩ := lastArm_eq_ok.1 hlast
    have he := hlinks _ List.mem_cons_self
    have hlink := hlinks _ (List.mem_cons_of_mem _ List.mem_cons_self)
    exact allWorded_conditional (allWorded_condition ht he) (allWorded_body he)
      (allWorded_body hlink)

/-- The siblings that a chain takes and those it leaves. -/
theorem allWorded_takeLinks {e : Element} {cs : List Child}
    (h : ∀ c ∈ Child.element e :: cs, (TreeNode.child c).AllWorded) :
    (∀ link ∈ e :: (takeLinks cs).1, (TreeNode.element link).AllWorded) ∧
      ∀ c ∈ (takeLinks cs).2, (TreeNode.child c).AllWorded := by
  have helement {link : Element} (hl : (TreeNode.child (.element link)).AllWorded) :
      (TreeNode.element link).AllWorded := hl.part (List.mem_singleton_self _)
  rw [List.forall_mem_cons] at h
  constructor
  · refine List.forall_mem_cons.2 ⟨helement h.1, ?_⟩
    intro link hl
    exact helement (h.2 _ (mem_takeLinks.2 (.inl ⟨link, hl, rfl⟩)))
  · intro c hc
    exact h.2 c (mem_takeLinks.2 (.inr hc))

end Chain

/-- Child lists that can be read back. -/
def Child.LegibleAll (cs : List Child) : Prop :=
  (∀ c ∈ cs, c.Legible) ∧ Chain.adjacentText? cs = none

theorem Child.legibleAll_cons {c : Child} {cs : List Child} (hc : c.Legible)
    (htext : c.isText = false) (hcs : LegibleAll cs) : LegibleAll (c :: cs) := by
  refine ⟨List.forall_mem_cons.2 ⟨hc, hcs.1⟩, ?_⟩
  rw [Chain.adjacentText?_cons_eq_none]
  exact ⟨by simp [htext], hcs.2⟩

namespace Child

/-- Putting a text before others brings no child in but that text, grown by the one it meets. -/
theorem forall_mem_joinText {P : Child → Prop} {s : String} {span : Span} {cs : List Child}
    (ht : P (.text s span))
    (hmeets : ∀ t span', P (.text t span') → P (.text (s ++ t) (span.merge span')))
    (h : ∀ c ∈ cs, P c) : ∀ c ∈ joinText (.text s span) cs, P c := by
  unfold joinText
  split
  · next heq =>
    cases heq
    rw [List.forall_mem_cons] at h
    exact List.forall_mem_cons.2 ⟨hmeets _ _ h.1, h.2⟩
  · exact List.forall_mem_cons.2 ⟨ht, h⟩

theorem adjacentText?_joinText {s : String} {span : Span} {cs : List Child}
    (h : Chain.adjacentText? cs = none) :
    Chain.adjacentText? (joinText (.text s span) cs) = none := by
  unfold joinText
  split
  · next heq =>
    cases heq
    rw [Chain.adjacentText?_cons_eq_none] at h ⊢
    exact ⟨fun _ => h.1 rfl, h.2⟩
  · next htexts =>
    rw [Chain.adjacentText?_cons_eq_none]
    refine ⟨?_, h⟩
    intro _ d hd
    obtain ⟨rest, rfl⟩ := List.head?_eq_some_iff.1 hd
    cases d with
    | text => exact absurd rfl (htexts _ _ _ _ _ rfl)
    | _ => rfl

theorem legibleAll_joinText {s : String} {span : Span} {cs : List Child} (hs : IsRawText s)
    (hcs : LegibleAll cs) : LegibleAll (joinText (.text s span) cs) := by
  refine ⟨forall_mem_joinText (legible_text.2 hs) ?_ hcs.1, adjacentText?_joinText hcs.2⟩
  intro t span' ht
  rw [legible_text] at ht ⊢
  refine ⟨by simp [hs.1], ?_⟩
  intro c hc
  rw [String.toList_append, List.mem_append] at hc
  exact hc.elim (hs.2 c) (ht.2 c)

end Child

namespace Rewrite

variable [NestingLimit]

mutual

theorem Walks.legible {d e k e'} : Walks d e k e' → (TreeNode.expr e).AllWorded → e'.Legible
  | .literal, he => TreeNode.throughout_iff.2 ⟨he.self, nofun⟩
  | .ident, he => Expr.legible_ident.2 he.self
  | .member h, he => Expr.legible_member.2 ⟨he.self, h.legible (he.part (.head _))⟩
  | .call h hs, he => by
    refine Expr.legible_call.2 ⟨h.legible (he.part (.head _)), hs.legible ?_⟩
    intro e hmem
    exact he.part (List.mem_cons_of_mem _ (List.mem_map.2 ⟨e, hmem, rfl⟩))
  | .unary h, he => Expr.legible_unary.2 (h.legible (he.part (.head _)))
  | .binary h h', he =>
    Expr.legible_binary.2 ⟨h.legible (he.part (.head _)), h'.legible (he.part (.tail _ (.head _)))⟩
  | .conditional h _ _ h' _ h'', he =>
    Expr.legible_conditional.2 ⟨h.legible (he.part (.head _)),
      h'.legible (he.part (.tail _ (.head _))),
      h''.legible (he.part (.tail _ (.tail _ (.head _))))⟩
  | .element _ h, he => Expr.legible_element.2 (h.legible (he.part (.head _)))
  | .standalone _ hbuilt h, he => by
    have hlink := he.part (.head _)
    exact h.legible ((Chain.builds_of_build hbuilt).allWorded (List.forall_mem_singleton.2 hlink))
  | .fragment h, he => Expr.legible_fragment.2 (h.legible (he.part (.head _)))

theorem WalksAll.legible {d es k es'} :
    WalksAll d es k es' → (∀ e ∈ es, (TreeNode.expr e).AllWorded) → ∀ e ∈ es', e.Legible
  | .nil, _ => nofun
  | .cons h hs, hes => by
    rw [List.forall_mem_cons] at hes
    exact List.forall_mem_cons.2 ⟨h.legible hes.1, hs.legible hes.2⟩

/-- The walk itself looks at the shape. -/
theorem WalksElement.legible {d e k e'} :
    WalksElement d e k e' → (TreeNode.element e).AllWorded → e'.Legible
  | .mk hshape _ ha _ hc, he => by
    have hattrs := ha.legible fun a hmem =>
      he.part (List.mem_append_left _ (List.mem_map.2 ⟨a, hmem, rfl⟩))
    have hchildren := hc.legible fun c hmem =>
      he.part (List.mem_append_right _ (List.mem_map.2 ⟨c, hmem, rfl⟩))
    refine Element.legible_iff.2 ⟨⟨he.self, ?_, hchildren.2⟩, hattrs, hchildren.1⟩
    intro hclosing
    rw [Chain.checkElement_eq_ok, Chain.shapeDefect?_eq_none] at hshape
    obtain rfl := hshape.2.1 hclosing
    cases hc
    rfl

theorem WalksFragment.legible {d f k f'} :
    WalksFragment d f k f' → (TreeNode.fragment f).AllWorded → f'.Legible
  | .mk _ _ _ hc, hf => by
    have hchildren := hc.legible fun c hmem => hf.part (List.mem_map.2 ⟨c, hmem, rfl⟩)
    exact Fragment.legible_iff.2 ⟨hchildren.2, hchildren.1⟩

theorem WalksAttributes.legible {d as k as'} :
    WalksAttributes d as k as' → (∀ a ∈ as, (TreeNode.attr a).AllWorded) → ∀ a ∈ as', a.Legible
  | .nil, _ => nofun
  | .bare hs, has => by
    rw [List.forall_mem_cons] at has
    have ha := Attribute.legible_iff.2 ⟨has.1.self, nofun⟩
    exact List.forall_mem_cons.2 ⟨ha, hs.legible has.2⟩
  | .valued h hs, has => by
    rw [List.forall_mem_cons] at has
    refine List.forall_mem_cons.2 ⟨Attribute.legible_iff.2 ⟨has.1.self, ?_⟩, hs.legible has.2⟩
    rintro v ⟨⟩
    exact h.legible (has.1.part (.head _))

theorem WalksValue.legible {d v k v'} :
    WalksValue d v k v' → (TreeNode.value v).AllWorded → v'.Legible
  | .text, hv => AttrValue.legible_text.2 hv.self
  | .empty, _ => AttrValue.legible_container.2 nofun
  | .container h, hv => by
    rw [AttrValue.legible_container]
    rintro e ⟨⟩
    exact h.legible (hv.part (.head _))
  | .element _ h, hv => AttrValue.legible_element.2 (h.legible (hv.part (.head _)))
  | .standalone _ hbuilt h, hv => by
    rw [AttrValue.legible_container]
    rintro e ⟨⟩
    have hlink := hv.part (.head _)
    exact h.legible ((Chain.builds_of_build hbuilt).allWorded (List.forall_mem_singleton.2 hlink))

theorem WalksChildren.legible {d cs k cs'} :
    WalksChildren d cs k cs' → (∀ c ∈ cs, (TreeNode.child c).AllWorded) → Child.LegibleAll cs'
  | .nil, _ => ⟨nofun, rfl⟩
  | .text h, hcs => by
    rw [List.forall_mem_cons] at hcs
    exact Child.legibleAll_joinText hcs.1.self (h.legible hcs.2)
  | .empty h, hcs => by
    rw [List.forall_mem_cons] at hcs
    exact Child.legibleAll_cons (Child.legible_container.2 nofun) rfl (h.legible hcs.2)
  | .container h hs, hcs => by
    rw [List.forall_mem_cons] at hcs
    refine Child.legibleAll_cons (Child.legible_container.2 ?_) rfl (hs.legible hcs.2)
    rintro e ⟨⟩
    exact h.legible (hcs.1.part (.head _))
  | .fragment h hs, hcs => by
    rw [List.forall_mem_cons] at hcs
    have hf := h.legible (hcs.1.part (.head _))
    exact Child.legibleAll_cons (Child.legible_fragment.2 hf) rfl (hs.legible hcs.2)
  | .element _ h hs, hcs => by
    rw [List.forall_mem_cons] at hcs
    have he := h.legible (hcs.1.part (.head _))
    exact Child.legibleAll_cons (Child.legible_element.2 he) rfl (hs.legible hcs.2)
  | .chain _ hbuilt h hs, hcs => by
    obtain ⟨hlinks, hleft⟩ := Chain.allWorded_takeLinks hcs
    refine Child.legibleAll_cons (Child.legible_container.2 ?_) rfl (hs.legible hleft)
    rintro e ⟨⟩
    exact h.legible ((Chain.builds_of_build hbuilt).allWorded hlinks)

end

theorem WalksStatement.legible {x k x'} (h : WalksStatement x k x') (hx : x.Legible) :
    x'.Legible := by
  have hworded {e : Expr} (he : e.Legible) : (TreeNode.expr e).AllWorded :=
    TreeNode.Throughout.mono he fun _ => TreeNode.Legible.worded
  cases h with
  | imports => exact hx
  | binding h => exact ⟨hx.1, h.legible (hworded hx.2)⟩
  | exportDefault h | expr h => exact h.legible (hworded hx)

/-- What is left of a program that can be read back can be read back. -/
theorem WalksStatements.legible {xs k xs'} (h : WalksStatements xs k xs')
    (hxs : ∀ s ∈ xs, s.val.Legible) : ∀ s ∈ xs', s.val.Legible := by
  induction h with
  | nil => exact hxs
  | removed _ _ ih =>
    rw [List.forall_mem_cons] at hxs
    exact ih hxs.2
  | kept _ h _ ih =>
    rw [List.forall_mem_cons] at hxs
    exact List.forall_mem_cons.2 ⟨h.legible hxs.1, ih hxs.2⟩

end Rewrite
end BranchMarkup
