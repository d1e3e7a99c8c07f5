import BranchMarkup.Proofs.Ledger
import BranchMarkup.Proofs.Reading.Sound
/-! What is read is as it was written: no node of it stands for a branch. -/
namespace BranchMarkup

/-- No node of the tree is one that a rewrite made. -/
def TreeNode.Unmarked (n : TreeNode) : Prop := n.Throughout (·.mark? = none)

theorem TreeNode.unmarked_of_parts {n : TreeNode} (hn : n.mark? = none)
    (h : ∀ l ∈ n.parts Element.attrs, l.Unmarked) : n.Unmarked :=
  throughout_iff.2 ⟨hn, h⟩

def Markup.node : Markup → TreeNode
  | element e => .element e
  | fragment f => .fragment f

theorem Markup.unmarked_toExpr {m : Markup} (h : m.node.Unmarked) :
    (TreeNode.expr m.toExpr).Unmarked := by
  cases m <;> exact TreeNode.unmarked_of_parts rfl (List.forall_mem_singleton.2 h)

theorem Markup.unmarked_toChild {m : Markup} (h : m.node.Unmarked) :
    (TreeNode.child m.toChild).Unmarked := by
  cases m <;> exact TreeNode.unmarked_of_parts rfl (List.forall_mem_singleton.2 h)

namespace Parse

open TreeNode (unmarked_of_parts)

theorem unmarked_of_atom {t : Spanned Token} {e : Expr} (h : atom? t = some e) :
    (TreeNode.expr e).Unmarked := by
  unfold atom? at h
  split at h <;> cases h <;> exact unmarked_of_parts rfl nofun

theorem unmarked_element {name : Spanned String} {attrs : List Attribute} {cs : List Child}
    {selfClosing : Bool} {span : Span} (ha : ∀ a ∈ attrs, (TreeNode.attr a).Unmarked)
    (hc : ∀ c ∈ cs, (TreeNode.child c).Unmarked) :
    (TreeNode.element ⟨name, attrs, cs, selfClosing, span⟩).Unmarked := by
  apply unmarked_of_parts rfl
  rw [TreeNode.parts, List.forall_mem_append, List.forall_mem_map, List.forall_mem_map]
  exact ⟨ha, hc⟩

theorem unmarked_container {inner : Option Expr} {span : Span}
    (h : ∀ e ∈ inner, (TreeNode.expr e).Unmarked) :
    (TreeNode.value (.container inner span)).Unmarked ∧
      (TreeNode.child (.container inner span)).Unmarked := by
  cases inner with
  | none => exact ⟨unmarked_of_parts rfl nofun, unmarked_of_parts rfl nofun⟩
  | some e =>
    have he := List.forall_mem_singleton.2 (h e rfl)
    exact ⟨unmarked_of_parts rfl he, unmarked_of_parts rfl he⟩

mutual

theorem ReadsExpr.unmarked {c h e c'} : ReadsExpr c h e c' → (TreeNode.expr e).Unmarked
  | .plain h _ => h.unmarked
  | .conditional h _ h' _ h'' => by
    apply unmarked_of_parts rfl
    simp only [TreeNode.parts, List.forall_mem_cons]
    exact ⟨h.unmarked, h'.unmarked, h''.unmarked, nofun⟩

theorem ReadsBinary.unmarked {power c h e c'} :
    ReadsBinary power c h e c' → (TreeNode.expr e).Unmarked
  | .mk h h' => h'.unmarked h.unmarked

theorem ReadsBinaryRest.unmarked {power c h lhs e c'} : ReadsBinaryRest power c h lhs e c' →
    (TreeNode.expr lhs).Unmarked → (TreeNode.expr e).Unmarked
  | .done _, hl => hl
  | .more _ _ h h', hl => by
    apply h'.unmarked
    apply unmarked_of_parts rfl
    simp only [TreeNode.parts, List.forall_mem_cons]
    exact ⟨hl, h.unmarked, nofun⟩

theorem ReadsUnary.unmarked {c h e c'} : ReadsUnary c h e c' → (TreeNode.expr e).Unmarked
  | .operator _ h => unmarked_of_parts rfl (List.forall_mem_singleton.2 h.unmarked)
  | .trailing _ h h' => h'.unmarked h.unmarked

theorem ReadsTrailing.unmarked {c h e e' c'} : ReadsTrailing c h e e' c' →
    (TreeNode.expr e).Unmarked → (TreeNode.expr e').Unmarked
  | .done _ _, he => he
  | .member _ _ h, he => h.unmarked (unmarked_of_parts rfl (List.forall_mem_singleton.2 he))
  | .call _ h _ h', he => by
    apply h'.unmarked
    apply unmarked_of_parts rfl
    rw [TreeNode.parts, List.forall_mem_cons, List.forall_mem_map]
    exact ⟨he, h.unmarked⟩

theorem ReadsArguments.unmarked {c h es c'} :
    ReadsArguments c h es c' → ∀ e ∈ es, (TreeNode.expr e).Unmarked
  | .none _ => nofun
  | .last _ h _ => List.forall_mem_singleton.2 h.unmarked
  | .more _ h _ h' => List.forall_mem_cons.2 ⟨h.unmarked, h'.unmarked⟩

theorem ReadsPrimary.unmarked {c h e c'} : ReadsPrimary c h e c' → (TreeNode.expr e).Unmarked
  | .atom h => unmarked_of_atom h
  | .parenthesized _ h _ => h.unmarked
  | .markup _ h => Markup.unmarked_toExpr h.unmarked

theorem ReadsMarkup.unmarked {start after c h m c'} :
    ReadsMarkup start after c h m c' → m.node.Unmarked
  | .fragment _ h _ => unmarked_of_parts rfl (List.forall_mem_map.2 h.unmarked)
  | .selfClosing _ _ h _ _ => unmarked_element h.unmarked nofun
  | .element _ _ h _ h' _ _ _ => unmarked_element h.unmarked h'.unmarked

theorem ReadsChildren.unmarked {c h cs c'} :
    ReadsChildren c h cs c' → ∀ x ∈ cs, (TreeNode.child x).Unmarked
  | .close _ _ => nofun
  | .text _ h => List.forall_mem_cons.2 ⟨unmarked_of_parts rfl nofun, h.unmarked⟩
  | .container _ h _ h' =>
    List.forall_mem_cons.2 ⟨(unmarked_container h.unmarked).2, h'.unmarked⟩
  | .markup _ _ h h' => List.forall_mem_cons.2 ⟨Markup.unmarked_toChild h.unmarked, h'.unmarked⟩

theorem ReadsContainer.unmarked {c h inner c'} :
    ReadsContainer c h inner c' → ∀ e ∈ inner, (TreeNode.expr e).Unmarked
  | .empty _ => nofun
  | .expr _ h => by
    rintro e ⟨⟩
    exact h.unmarked

theorem ReadsAttributes.unmarked {c h as c'} :
    ReadsAttributes c h as c' → ∀ a ∈ as, (TreeNode.attr a).Unmarked
  | .done _ _ => nofun
  | .more _ _ h h' => by
    refine List.forall_mem_cons.2 ⟨unmarked_of_parts rfl ?_, h'.unmarked⟩
    rw [TreeNode.parts, List.forall_mem_map]
    exact fun v hv => h.unmarked v (Option.mem_toList.1 hv)

theorem ReadsAttrValue.unmarked {c h v c'} :
    ReadsAttrValue c h v c' → ∀ x ∈ v, (TreeNode.value x).Unmarked
  | .bare _ => nofun
  | .text _ _ => by
    rintro x ⟨⟩
    exact unmarked_of_parts rfl nofun
  | .container _ _ h _ => by
    rintro x ⟨⟩
    exact (unmarked_container h.unmarked).1
  | .element _ _ h => by
    rintro x ⟨⟩
    exact unmarked_of_parts rfl (List.forall_mem_singleton.2 h.unmarked)

end

theorem ReadsStatements.unmarked {c h ss c'} (hss : ReadsStatements c h ss c') :
    ∀ s ∈ ss, ∀ e, s.val.expr? = some e → (TreeNode.expr e).Unmarked := by
  have hbody {c h s c'} (hs : ReadsBody c h s c') :
      ∀ e, s.expr? = some e → (TreeNode.expr e).Unmarked := by
    cases hs with
    | imports => exact nofun
    | binding _ _ _ h | exportDefault _ _ h | expr _ h =>
      rintro e ⟨⟩
      exact h.unmarked
  induction hss with
  | none => exact nofun
  | more _ h _ ih =>
    refine List.forall_mem_cons.2 ⟨?_, ih⟩
    cases h with
    | closed h _ | bare h _ => exact hbody h

end Parse

theorem Program.unmarked_of_parse {name source : String} {p : Program}
    (h : parse name source = .ok p) : ∀ r ∈ p.roots, r.Unmarked := by
  obtain ⟨k, c, hreads, -⟩ := Parse.readsStatements_of_parse h
  intro r hr
  obtain ⟨s, hs, hr⟩ := List.mem_flatMap.1 hr
  obtain ⟨e, he, rfl⟩ := List.mem_map.1 hr
  exact hreads.unmarked s hs e (Option.mem_toList.1 he)

end BranchMarkup
