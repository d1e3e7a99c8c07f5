import Mathlib
import BranchMarkup.Proofs.Flaw
/-! What a rewrite takes for a chain, and whom it blames where there is none. -/
namespace BranchMarkup

/-- The rules about branches hold at the node: a continuation stands among children only, and there
the nearest significant child before it carries a condition; a link that needs a condition has one,
bare or an expression in braces. -/
structure TreeNode.WellChained (n : TreeNode) : Prop where
  child : ∀ e b, n = .expr (.element e) ∨ n = .value (.element e) → e.branch? = some b →
    b.continues = false
  anchored : ∀ before e after b, n.children = before ++ .element e :: after → e.branch? = some b →
    b.continues = true → Chain.isAnchored before = true
  tested : ∀ e b, n = .element e → e.branch? = some b → b.tests = true →
    ∃ a, e.find? conditionName = some a ∧
      (a.value = none ∨ ∃ test span, a.value = some (.container (some test) span))

theorem AttrValue.conditionDefect?_eq_none {v : AttrValue} :
    v.conditionDefect? = none ↔ ∃ test span, v = .container (some test) span := by
  rcases v with _ | ⟨_ | _, _⟩ | _ <;> simp [conditionDefect?]

theorem TreeNode.wellChained_iff {n : TreeNode} : n.WellChained ↔ ∀ x s, ¬ n.Breaks x s := by
  constructor
  · rintro ⟨hchild, hanchored, htested⟩ x s h
    cases h with
    | inExpr h =>
      obtain ⟨b, hb, hcontinues, -⟩ := h
      simp [hchild _ b (.inl rfl) hb] at hcontinues
    | inValue h =>
      obtain ⟨b, hb, hcontinues, -⟩ := h
      simp [hchild _ b (.inr rfl) hb] at hcontinues
    | among hn h ht =>
      obtain ⟨b, hb, hcontinues, -⟩ := h
      simp [hanchored _ _ _ b hn hb hcontinues] at ht
    | missing hb ht hnone =>
      obtain ⟨a, ha, -⟩ := htested _ _ rfl hb ht
      cases hnone.symm.trans ha
    | invalid hb ht ha hv hfound =>
      obtain ⟨a', ha', hnone | ⟨_, _, hsome⟩⟩ := htested _ _ rfl hb ht
      · cases ha.symm.trans ha'
        cases hv.symm.trans hnone
      · cases ha.symm.trans ha'
        cases hv.symm.trans hsome
        cases hfound
  · intro h
    refine ⟨?_, ?_, ?_⟩
    · intro e b hn hb
      cases hcontinues : b.continues with
      | false => rfl
      | true =>
        have hstray : e.Stray (.orphaned b) e.span := ⟨b, hb, hcontinues, rfl, rfl⟩
        rcases hn with rfl | rfl
        · exact absurd (.inExpr hstray) (h _ _)
        · exact absurd (.inValue hstray) (h _ _)
    · intro before e after b hn hb hcontinues
      cases ht : Chain.isAnchored before with
      | true => rfl
      | false => exact absurd (.among hn ⟨b, hb, hcontinues, rfl, rfl⟩ ht) (h _ _)
    · rintro e b rfl hb ht
      cases ha : e.find? conditionName with
      | none => exact absurd (.missing hb ht ha) (h _ _)
      | some a =>
        refine ⟨a, rfl, ?_⟩
        cases hv : a.value with
        | none => exact .inl rfl
        | some v =>
          cases hfound : v.conditionDefect? with
          | none =>
            obtain ⟨test, span, rfl⟩ := AttrValue.conditionDefect?_eq_none.1 hfound
            exact .inr ⟨test, span, rfl⟩
          | some found => exact absurd (.invalid hb ht ha hv hfound) (h _ _)

namespace Program

/-- Where a rewrite succeeds the rules hold at every node but those in attributes that go with their
branch. Where it fails for a continuation or a condition, the node it blames is one that breaks the
very rule, at the place it names. -/
theorem rewrite_chains (p : Program) :
    (∀ r, p.rewrite = .ok r → ∀ n, p.Has Element.liveAttrs n → n.WellChained) ∧
    ∀ y, p.rewrite = .error y →
      ((∃ b, y.cause = .orphaned b) ∨ y.cause = .missingCondition ∨
        ∃ found, y.cause = .invalidCondition found) →
      ∃ n, p.Has Element.liveAttrs n ∧ n.Breaks y.cause y.span := by
  constructor
  · intro r hr n hn
    exact TreeNode.wellChained_iff.2 fun x s h => not_flaw_of_rewrite hr hn (.chain h)
  · intro y hy hcause
    have hdeep : y.cause ≠ .tooDeep := by
      rcases hcause with ⟨b, h⟩ | h | ⟨found, h⟩ <;> simp [h]
    obtain ⟨n, hn, hflaw⟩ := has_flaw_of_rewrite hy hdeep
    refine ⟨n, hn, ?_⟩
    generalize y.cause = x at hflaw hcause ⊢
    cases hflaw with
    | shape => simp at hcause
    | chain h => exact h

def siblings (cs : List Child) : Program :=
  ⟨"a.jsx", [⟨.expr (.fragment ⟨cs, none, .zero⟩), .zero⟩], []⟩

/-- `<If condition></If>` -/
def openSample : Child :=
  .element ⟨⟨"If", .ofOffsets 1 3⟩,
    [⟨⟨conditionName, .ofOffsets 4 13⟩, none, .ofOffsets 4 13⟩], [], false, .ofOffsets 0 19⟩

/-- `<Else></Else>`, where the other one ends -/
def lastSample : Child :=
  .element ⟨⟨"Else", .ofOffsets 20 24⟩, [], [], false, .ofOffsets 19 32⟩

theorem rewrite_chains_siblings :
    (∃ r, (siblings [openSample, lastSample]).rewrite = .ok r ∧
      (TreeNode.fragment ⟨[openSample, lastSample], none, .zero⟩).WellChained) ∧
    ∃ y, (siblings [lastSample, openSample]).rewrite = .error y ∧
      y.cause = .orphaned .otherwise ∧ y.span = .ofOffsets 19 32 ∧
      ∃ n, (siblings [lastSample, openSample]).Has Element.liveAttrs n ∧
        n.Breaks y.cause y.span := by
  constructor
  · have hrun : (siblings [openSample, lastSample]).rewrite.toOption.any (fun _ => true) = true := by
      cbv
    obtain ⟨r, h, -⟩ := exists_ok_of_any hrun
    have hhas : (siblings [openSample, lastSample]).Has Element.liveAttrs
        (.fragment ⟨[openSample, lastSample], none, .zero⟩) :=
      ⟨_, List.mem_singleton_self _, _, rfl, .part (List.mem_singleton_self _) .self⟩
    exact ⟨r, h, (rewrite_chains _).1 r h _ hhas⟩
  · have hrun : ((siblings [lastSample, openSample]).rewrite.mapError fun y => (y.cause, y.span)) =
        .error (.orphaned .otherwise, .ofOffsets 19 32) := by
      cbv
    cases h : (siblings [lastSample, openSample]).rewrite with
    | ok r =>
      rw [h] at hrun
      cases hrun
    | error y =>
      rw [h] at hrun
      obtain ⟨hcause, hspan⟩ := Prod.mk.inj (Except.error.inj hrun)
      exact ⟨y, rfl, hcause, hspan, (rewrite_chains _).2 y h (.inl ⟨_, hcause⟩)⟩

end Program
end BranchMarkup
