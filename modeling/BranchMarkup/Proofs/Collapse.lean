import Mathlib
import BranchMarkup.Proofs.Lines
import BranchMarkup.Proofs.Meaning
/-! What a branch with several children shows. Rewritten it shows them without the ignorable ones, and
so less than its element would where one of these is a text that shows. -/
namespace BranchMarkup

theorem Eval.run_bind_eq_ok {α β : Type} {x : Eval α} {f : α → Eval β} {s t : Session} {b : β} :
    (x >>= f).run s = (.ok b, t) ↔ ∃ a u, x.run s = (.ok a, u) ∧ (f a).run u = (.ok b, t) := by
  have hbind : (x >>= f).run s = ExceptT.bindCont f (x.run s).1 (x.run s).2 := rfl
  rw [hbind]
  obtain ⟨result, u⟩ := x.run s
  constructor
  · intro h
    cases result with
    | error e => cases h
    | ok a => exact ⟨a, u, rfl, h⟩
  · rintro ⟨a, u', hx, hf⟩
    cases hx
    exact hf

theorem Eval.run_pure_eq_ok {α : Type} {a b : α} {s t : Session} :
    (pure a : Eval α).run s = (.ok b, t) ↔ a = b ∧ s = t := by
  rw [show (pure a : Eval α).run s = (.ok a, s) from rfl, Prod.mk.injEq, Except.ok.injEq]

theorem Value.renderAll_append (vs ws : List Value) :
    renderAll (vs ++ ws) = renderAll vs ++ renderAll ws := by
  induction vs with
  | nil => simp [renderAll]
  | cons v vs ih => rw [List.cons_append, renderAll, renderAll, ih, String.append_assoc]

namespace Child

def hidden : Child → List Char
  | .text s _ => if s.toList.all Text.isBlank then Text.tidied s.toList else []
  | _ => []

theorem hidden_of_isSignificant {c : Child} (h : c.isSignificant = true) : c.hidden = [] := by
  cases c with
  | text s _ => exact if_neg (by simpa [isSignificant] using h)
  | container e _ => rfl
  | element e => rfl
  | fragment f => rfl

theorem hidden_eq_nil_iff {c : Child} :
    c.hidden = [] ↔ ∀ text place, c = .text text place → text.toList.all Text.isBlank = true →
      text = "" ∨ Text.IsIndent text.toList := by
  cases c with
  | text s _ => simp [hidden, Text.tidied_eq_nil_iff_isIndent]
  | container e _ => simp [hidden]
  | element e => simp [hidden]
  | fragment f => simp [hidden]

variable (host : Host)

theorem eval_of_ignorable {c : Child} (h : c.isSignificant = false) :
    ∃ v : Option Value, c.eval host = pure v ∧ Value.renderAll v.toList = String.ofList c.hidden := by
  cases c with
  | text s _ =>
    refine ⟨_, rfl, ?_⟩
    have hblank : s.toList.all Text.isBlank = true := by simpa [isSignificant] using h
    rw [hidden, if_pos hblank, Text.tidied]
    cases Text.tidy? s.toList <;> simp [Value.renderAll, Value.render]
  | container e _ =>
    cases e with
    | none => exact ⟨none, rfl, by simp [Value.renderAll, hidden]⟩
    | some e => simp [isSignificant] at h
  | element e => simp [isSignificant] at h
  | fragment f => simp [isSignificant] at h

theorem evalAll_filter {cs : List Child} {vs : List Value} {s t : Session}
    (h : (evalAll host cs).run s = (.ok vs, t)) :
    ∃ ws, (evalAll host (cs.filter isSignificant)).run s = (.ok ws, t) ∧
      (Value.renderAll ws).toList.Sublist (Value.renderAll vs).toList ∧
      (Value.renderAll vs).length = (Value.renderAll ws).length + (cs.flatMap hidden).length := by
  induction cs generalizing vs s with
  | nil =>
    exact ⟨vs, h, List.Sublist.refl _, rfl⟩
  | cons c cs ih =>
    rw [evalAll, Eval.run_bind_eq_ok] at h
    obtain ⟨v, u, hv, h⟩ := h
    rw [Eval.run_bind_eq_ok] at h
    obtain ⟨rest, t', hrest, h⟩ := h
    rw [Eval.run_pure_eq_ok] at h
    obtain ⟨rfl, rfl⟩ := h
    obtain ⟨ws, hws, hsub, hlen⟩ := ih hrest
    cases hc : c.isSignificant with
    | false =>
      obtain ⟨v', heval, hshown⟩ := eval_of_ignorable host hc
      rw [heval, Eval.run_pure_eq_ok] at hv
      obtain ⟨rfl, rfl⟩ := hv
      rw [List.filter_cons_of_neg (by simp [hc])]
      refine ⟨ws, hws, ?_, ?_⟩
      · rw [Value.renderAll_append, String.toList_append]
        exact hsub.trans (List.sublist_append_right _ _)
      · rw [Value.renderAll_append, hshown, String.length_append, List.flatMap_cons, hlen]
        simp
        omega
    | true =>
      rw [List.filter_cons_of_pos hc, List.flatMap_cons, hidden_of_isSignificant hc, List.nil_append]
      refine ⟨v.toList ++ ws, ?_, ?_, ?_⟩
      · rw [evalAll, Eval.run_bind_eq_ok]
        refine ⟨v, u, hv, ?_⟩
        rw [Eval.run_bind_eq_ok]
        exact ⟨ws, _, hws, rfl⟩
      · rw [Value.renderAll_append, Value.renderAll_append, String.toList_append, String.toList_append]
        exact List.Sublist.append (List.Sublist.refl _) hsub
      · rw [Value.renderAll_append, Value.renderAll_append, String.length_append, String.length_append, hlen,
          Nat.add_assoc]

end Child

namespace Chain

theorem collapse_of_many {children : List Child} (h : 2 ≤ (children.filter Child.isSignificant).length)
    (origin : Provenance) :
    collapse children origin =
      .fragment ⟨children.filter Child.isSignificant, some origin, origin.origin⟩ := by
  rw [collapse]
  split
  · next hnone => simp [hnone] at h
  · next c hone => simp [hone] at h
  · rfl

/-- A branch element that falls back shows all its children, once its attributes say so. -/
theorem eval_element_of_fallback {host : Host} (hhost : host.branches = .fallback) {e : Element} {b : Branch}
    (hb : e.branch? = some b) {props : List (String × Value)} {s₀ s t : Session} {vs : List Value}
    (hprops : (Attribute.evalAll host e.attrs).run s₀ = (.ok props, s))
    (hshown : Eval.isShown props b = true) (hvs : (Child.evalAll host e.children).run s = (.ok vs, t)) :
    (e.eval host).run s₀ = (.ok (.fragment vs), t.warn (Eval.fallbackWarning b)) := by
  obtain ⟨name, attrs, children, selfClosing, span⟩ := e
  have hb : Branch.ofTag? name.val = some b := hb
  rw [Element.eval, Eval.run_bind_eq_ok]
  refine ⟨props, s, hprops, ?_⟩
  rw [Eval.run_bind_eq_ok]
  refine ⟨vs, t, hvs, ?_⟩
  rw [Eval.element, hb, hhost]
  dsimp only
  rw [hshown]
  rfl

/-- A branch with several children evaluates to less than all of them: what is missing is the blank
texts, which show unless a line break stands before the blanks they end in. -/
theorem render_collapse {host : Host} {children : List Child} {place : Span} {origin : Provenance}
    {s t : Session} {v : Value} (hmany : 2 ≤ (children.filter Child.isSignificant).length)
    (hv : ((Expr.fragment ⟨children, none, place⟩).eval host).run s = (.ok v, t)) :
    (∃ w, ((collapse children origin).eval host).run s = (.ok w, t) ∧
      w.render.toList.Sublist v.render.toList ∧
      (w.render = v.render ↔ ∀ text place, Child.text text place ∈ children →
        text.toList.all Text.isBlank = true → text = "" ∨ Text.IsIndent text.toList)) ∧
    ∀ (e : Element) (b : Branch) (props : List (String × Value)) (s₀ : Session),
      host.branches = .fallback → e.branch? = some b → e.children = children →
      (Attribute.evalAll host e.attrs).run s₀ = (.ok props, s) → Eval.isShown props b = true →
      ((Expr.element e).eval host).run s₀ = (.ok v, t.warn (Eval.fallbackWarning b)) := by
  rw [Expr.eval, Fragment.eval, Eval.run_bind_eq_ok] at hv
  obtain ⟨vs, t', hvs, hv⟩ := hv
  rw [Eval.run_pure_eq_ok] at hv
  obtain ⟨rfl, rfl⟩ := hv
  obtain ⟨ws, hws, hsub, hlen⟩ := Child.evalAll_filter host hvs
  constructor
  · refine ⟨.fragment ws, ?_, ?_, ?_⟩
    · rw [collapse_of_many hmany, Expr.eval, Fragment.eval, Eval.run_bind_eq_ok]
      exact ⟨ws, _, hws, rfl⟩
    · rwa [Value.render, Value.render]
    · have hsame : Value.renderAll ws = Value.renderAll vs ↔ children.flatMap Child.hidden = [] := by
        rw [← List.length_eq_zero_iff]
        constructor
        · intro h
          rw [h] at hlen
          omega
        · intro h
          have hlength : (Value.renderAll ws).toList.length = (Value.renderAll vs).toList.length := by
            rw [String.length_toList, String.length_toList, hlen, h, Nat.add_zero]
          exact String.toList_injective (hsub.eq_of_length hlength)
      rw [Value.render, Value.render, hsame, List.flatMap_eq_nil_iff]
      simp only [Child.hidden_eq_nil_iff]
      constructor
      · exact fun h text place hmem => h _ hmem text place rfl
      · exact fun h c hc text place htext => h text place (htext ▸ hc)
  · intro e b props s₀ hhost hb hchildren hprops hshown
    subst hchildren
    rw [Expr.eval]
    exact eval_element_of_fallback hhost hb hprops hshown hvs

def spacedBody (gap : String) : List Child :=
  [.element ⟨⟨"A", .zero⟩, [], [], true, .zero⟩, .text gap .zero,
    .element ⟨⟨"B", .zero⟩, [], [], true, .zero⟩]

theorem render_collapse_indented :
    ∃ w, ((collapse (spacedBody "\n  ") ⟨.zero, .when⟩).eval Host.bare).run .empty = (.ok w, .empty) ∧
      w.render = "<A /><B />" := by
  have hv : ((Expr.fragment ⟨spacedBody "\n  ", none, .zero⟩).eval Host.bare).run .empty =
      (.ok (.fragment [.element "A" [] [], .element "B" [] []]), .empty) := by
    cbv
  obtain ⟨⟨w, hw, -, hsame⟩, -⟩ := @render_collapse _ _ _ ⟨.zero, .when⟩ _ _ _ (by decide) hv
  refine ⟨w, hw, (hsame.2 fun text place hmem _ => ?_).trans (by cbv)⟩
  simp only [spacedBody, List.mem_cons, List.not_mem_nil, or_false, reduceCtorEq, Child.text.injEq,
    false_or] at hmem
  rw [hmem.1]
  exact .inr ⟨[], [' ', ' '], rfl, by simp, by simp⟩

/-- A space between two elements is lost. -/
theorem render_collapse_spaced_ne :
    ¬ ∀ (host : Host) (children : List Child) (place : Span) (origin : Provenance) (s t : Session)
        (v : Value), 2 ≤ (children.filter Child.isSignificant).length →
      ((Expr.fragment ⟨children, none, place⟩).eval host).run s = (.ok v, t) →
      ∃ w, ((collapse children origin).eval host).run s = (.ok w, t) ∧ w.render = v.render := by
  intro h
  have hv : ((Expr.fragment ⟨spacedBody " ", none, .zero⟩).eval Host.bare).run .empty =
      (.ok (.fragment [.element "A" [] [], .string "  ", .element "B" [] []]), .empty) := by
    cbv
  have hw : ((collapse (spacedBody " ") ⟨.zero, .when⟩).eval Host.bare).run .empty =
      (.ok (.fragment [.element "A" [] [], .element "B" [] []]), .empty) := by
    cbv
  obtain ⟨w, hw', hsame⟩ := h Host.bare (spacedBody " ") .zero ⟨.zero, .when⟩ .empty .empty _ (by decide) hv
  rw [hw, Prod.mk.injEq, Except.ok.injEq] at hw'
  have hplain : (Value.fragment [.element "A" [] [], .string "  ", .element "B" [] []]).render =
      "<A />  <B />" := by
    cbv
  have hkept : (Value.fragment [.element "A" [] [], .element "B" [] []]).render = "<A /><B />" := by
    cbv
  rw [← hw'.1, hkept, hplain] at hsame
  exact absurd hsame (by decide)

end Chain
end BranchMarkup
