import Mathlib
import BranchMarkup.Evaluate.Lazy
import BranchMarkup.Proofs.Building
import BranchMarkup.Proofs.Walk
/-! A rewritten program evaluates to what the program means. The conditional built of a chain is
evaluated like the chain, whatever is built; a derivation of a walk then carries this through the
tree, with the items of child lists as what is related, since texts meet in them. -/
namespace BranchMarkup

section
variable (host : Host) (texts : List Item → List Value)

namespace Chain

/-! What a chain comes to, with its links in a list. -/

def lazyLinks : List Element → Eval Value
  | [] => return .null
  | e :: links =>
    if e.branch? = some .elseWhen then
      Eval.choose (e.lazyCondition host texts) (e.lazyBody host texts) (lazyLinks links)
    else e.lazyBody host texts

theorem lazyNext_eq (cs : List Child) :
    Child.lazyNext host texts cs = lazyLinks host texts (takeLinks cs).1 := by
  fun_induction takeLinks cs with
  | case1 => rfl
  | case2 e cs h links left heq ih =>
    rw [heq] at ih
    simp only [Child.lazyNext, h, lazyLinks, ↓reduceIte, ih]
  | case3 e cs h => simp [Child.lazyNext, h, lazyLinks]
  | case4 e cs h1 h2 =>
    unfold Child.lazyNext
    split <;> simp_all [lazyLinks]
  | case5 c cs hne h =>
    cases c with
    | text s span => simp [Child.lazyNext, h, lazyLinks]
    | container e _ => cases e <;> simp_all [Child.lazyNext, lazyLinks, Child.isSignificant]
    | element e => exact absurd rfl (hne e)
    | fragment f => rfl
  | case6 c cs hne h links left heq ih =>
    cases c with
    | text s span => simp [Child.lazyNext, h, ih, heq]
    | container e _ => cases e <;> simp_all [Child.lazyNext, Child.isSignificant]
    | element e => exact absurd rfl (hne e)
    | fragment f => simp [Child.isSignificant] at h

theorem items_takeLinks (cs : List Child) :
    Child.items host texts false true cs = Child.items host texts false false (takeLinks cs).2 := by
  fun_induction takeLinks cs with
  | case1 => rfl
  | case2 e cs h links left heq ih =>
    rw [heq] at ih
    simp only [Child.items, h, ↓reduceIte]
    exact ih
  | case3 e cs h => simp only [Child.items, h, ↓reduceIte]; rfl
  | case4 e cs h1 h2 =>
    cases hb : e.branch? with
    | none => simp only [Child.items, hb]
    | some b => cases b <;> simp_all [Child.items]
  | case5 c cs hne h =>
    cases c with
    | text s span => simp [Child.items, h]
    | container e _ => cases e <;> simp_all [Child.items, Child.isSignificant]
    | element e => exact absurd rfl (hne e)
    | fragment f => rfl
  | case6 c cs hne h links left heq ih =>
    cases c with
    | text s span => simp_all [Child.items]
    | container e _ => cases e <;> simp_all [Child.items, Child.isSignificant]
    | element e => exact absurd rfl (hne e)
    | fragment f => simp [Child.isSignificant] at h

/-! Building -/

theorem lazyCondition_eq (as : List Attribute) :
    Attribute.lazyCondition host texts as =
      match as.find? (·.name.val == conditionName) with
      | none => return .undefined
      | some ⟨_, none, _⟩ => return .bool true
      | some ⟨_, some v, _⟩ => v.lazy host texts := by
  induction as with
  | nil => rfl
  | cons a as ih =>
    obtain ⟨name, value, span⟩ := a
    by_cases h : name.val = conditionName
    · cases value <;> simp [Attribute.lazyCondition, h]
    · rw [Attribute.lazyCondition.eq_def]
      simp only [h, ↓reduceIte]
      rw [ih, List.find?_cons_of_neg (by simpa using h)]

theorem lazy_of_condition {e : Element} {test : Expr} (h : condition e = .ok test) :
    test.lazy host texts = e.lazyCondition host texts := by
  obtain ⟨name, attrs, children, selfClosing, span⟩ := e
  rw [Element.lazyCondition, lazyCondition_eq]
  simp only [condition, Element.find?] at h
  split at h
  · cases h
  · next hf =>
    cases h
    simp only [hf, Expr.lazy, Literal.value]
  · next hf =>
    cases h
    simp only [hf, AttrValue.lazy]
  all_goals cases h

theorem lazyNext_filter (cs : List Child) :
    Child.lazyNext host texts (cs.filter Child.isSignificant) = Child.lazyNext host texts cs := by
  induction cs with
  | nil => rfl
  | cons c cs ih =>
    by_cases h : c.isSignificant
    · rw [List.filter_cons_of_pos h]
      cases c with
      | text s span => simp [Child.lazyNext, h]
      | container e _ => cases e <;> simp_all [Child.lazyNext, Child.isSignificant]
      | element e => simp only [Child.lazyNext, ih]
      | fragment f => rfl
    · rw [List.filter_cons_of_neg h, ih]
      cases c with
      | text s span => simp [Child.lazyNext, h]
      | container e _ => cases e <;> simp_all [Child.lazyNext, Child.isSignificant]
      | element e => simp [Child.isSignificant] at h
      | fragment f => simp [Child.isSignificant] at h

theorem items_filter (inChain : Bool) (cs : List Child) :
    Child.items host texts false inChain (cs.filter Child.isSignificant) =
      Child.items host texts true inChain cs := by
  induction cs generalizing inChain with
  | nil => rfl
  | cons c cs ih =>
    by_cases h : c.isSignificant
    · rw [List.filter_cons_of_pos h]
      cases c with
      | text s span => simp [Child.items, h, ih]
      | container e _ => cases e <;> simp_all [Child.items, Child.isSignificant]
      | element e => simp only [Child.items, ih, lazyNext_filter]
      | fragment f => simp only [Child.items, ih]
    · rw [List.filter_cons_of_neg h, ih]
      cases c with
      | text s span => simp [Child.items, h]
      | container e _ => cases e <;> simp_all [Child.items, Child.isSignificant]
      | element e => simp [Child.isSignificant] at h
      | fragment f => simp [Child.isSignificant] at h

theorem lazyOnly_eq (cs : List Child) :
    Child.lazyOnly host texts cs =
      match cs.filter Child.isSignificant with
      | [] => return .null
      | c :: _ => c.alone.lazy host texts := by
  induction cs with
  | nil => rfl
  | cons c cs ih =>
    by_cases h : c.isSignificant
    · rw [List.filter_cons_of_pos h]
      cases c with
      | text s span => simp [Child.lazyOnly, h, Child.alone, Expr.lazy, Literal.value]
      | container e _ =>
        cases e <;> simp_all [Child.lazyOnly, Child.isSignificant, Child.alone]
      | element e => rfl
      | fragment f => rfl
    · rw [List.filter_cons_of_neg h, ← ih]
      cases c with
      | text s span => simp [Child.lazyOnly, h]
      | container e _ => cases e <;> simp_all [Child.lazyOnly, Child.isSignificant]
      | element e => simp [Child.isSignificant] at h
      | fragment f => simp [Child.isSignificant] at h

theorem lazy_collapse (e : Element) (origin : Provenance) :
    (collapse e.children origin).lazy host texts = e.lazyBody host texts := by
  obtain ⟨name, attrs, children, selfClosing, span⟩ := e
  rw [Element.lazyBody, List.countP_eq_length_filter, collapse, lazyOnly_eq, ← items_filter]
  match children.filter Child.isSignificant with
  | [] => rfl
  | [c] => rfl
  | c :: c' :: cs => rfl

/-- The conditional of a chain evaluates as the chain does. -/
theorem Builds.lazy_eq {d e links built} (h : Builds d e links built) :
    built.lazy host texts =
      Eval.choose (e.lazyCondition host texts) (e.lazyBody host texts)
        (lazyLinks host texts links) := by
  induction h with
  | last ha =>
    obtain ⟨-, -, hc, rfl⟩ := arm_eq_ok.1 ha
    rw [conditional, Expr.lazy, lazy_of_condition host texts hc, lazy_collapse]
    rfl
  | next ha hl _ ih =>
    obtain ⟨-, -, hc, rfl⟩ := arm_eq_ok.1 ha
    rw [conditional, Expr.lazy, lazy_of_condition host texts hc, lazy_collapse, ih, lazyLinks,
      if_pos hl]
  | otherwise ha hl hb =>
    obtain ⟨-, -, hc, rfl⟩ := arm_eq_ok.1 ha
    obtain ⟨-, rfl⟩ := lastArm_eq_ok.1 hb
    rw [conditional, Expr.lazy, lazy_of_condition host texts hc, lazy_collapse, lazy_collapse,
      lazyLinks, if_neg hl]

end Chain
end

/-! Child lists whose chains are gone, item by item. -/

section
variable (host : Host)

def Child.evalItem : Child → Eval Item
  | .text s _ => return .text s
  | .container none _ => return .nothing
  | .container (some e) _ => return .value (← e.eval host)
  | .element e => return .value (← e.eval host)
  | .fragment f => return .value (← f.eval host)

def Child.evalItems (cs : List Child) : Eval (List Item) := cs.mapM (Child.evalItem host)

theorem Child.evalItems_cons (c : Child) (cs : List Child) :
    Child.evalItems host (c :: cs) = do
      let i ← c.evalItem host
      let is ← Child.evalItems host cs
      return i :: is :=
  List.mapM_cons

theorem Child.evalAll_eq (cs : List Child) :
    Child.evalAll host cs = Item.apart <$> Child.evalItems host cs := by
  induction cs with
  | nil => simp [Child.evalAll, Child.evalItems, Item.apart]
  | cons c cs ih =>
    rw [Child.evalItems_cons, Child.evalAll, ih]
    cases c with
    | text s span => simp [Child.eval, Child.evalItem, Item.apart]
    | container e span => cases e <;> simp [Child.eval, Child.evalItem, Item.apart]
    | element e => simp [Child.eval, Child.evalItem, Item.apart]
    | fragment f => simp [Child.eval, Child.evalItem, Item.apart]

theorem Child.evalItems_joinText (s : String) (span : Span) (cs : List Child) :
    Child.evalItems host (Child.joinText (.text s span) cs) =
      Item.join (.text s) <$> Child.evalItems host cs := by
  cases cs with
  | nil => simp [Child.joinText, Child.evalItem, Child.evalItems, Item.join]
  | cons c cs =>
    cases c with
    | text s' span' => simp [Child.joinText, Child.evalItems_cons, Child.evalItem, Item.join]
    | container e span' =>
      cases e <;> simp [Child.joinText, Child.evalItems_cons, Child.evalItem, Item.join]
    | element e => simp [Child.joinText, Child.evalItems_cons, Child.evalItem, Item.join]
    | fragment f => simp [Child.joinText, Child.evalItems_cons, Child.evalItem, Item.join]

namespace Rewrite

/-! A walk keeps where a node stands and the dotted name it spells. -/

theorem Walks.eq_conditional {d t c a p s k e'} (h : Walks d (.conditional t c a p s) k e') :
    ∃ t' c' a', e' = .conditional t' c' a' p s := by
  cases h
  exact ⟨_, _, _, rfl⟩

theorem Walks.eq_conditional_of_builds {d d' e links built k e'}
    (hb : Chain.Builds d e links built) (h : Walks d' built k e') :
    ∃ t c a, e' = .conditional t c a (some (Chain.origin e)) e.span := by
  obtain ⟨t, c, a, rfl⟩ := hb.eq_conditional
  exact h.eq_conditional

theorem Walks.span_eq {d e k e'} (h : Walks d e k e') : e'.span = e.span := by
  cases h with
  | standalone _ hb h =>
    obtain ⟨t, c, a, rfl⟩ := h.eq_conditional_of_builds (Chain.builds_of_build hb)
    rfl
  | element _ h =>
    cases h
    rfl
  | fragment h =>
    cases h
    rfl
  | _ => rfl

theorem Walks.path?_eq {d e k e'} : Walks d e k e' → e'.path? = e.path?
  | .literal | .ident | .call .. | .unary .. | .binary .. | .conditional .. | .element .. |
    .fragment .. => rfl
  | .member h => by simp only [Expr.path?, h.path?_eq]
  | .standalone _ hb h => by
    obtain ⟨t, c, a, rfl⟩ := h.eq_conditional_of_builds (Chain.builds_of_build hb)
    rfl

/-! Evaluating what a walk makes is evaluating lazily what was walked. -/

mutual

theorem Walks.eval_eq {d e k e'} : Walks d e k e' → e'.eval host = e.lazy host Item.joined
  | .literal | .ident => rfl
  | .member h => by simp only [Expr.eval, Expr.lazy, Eval.lookup, Expr.path?, h.path?_eq]
  | @Walks.call _ _ c _ _ _ _ _ _ h hs => by
    cases hp : c.path? <;>
      simp only [Expr.eval, Expr.lazy, h.path?_eq, hp, h.span_eq, hs.evalAll_eq]
  | .unary h => by simp only [Expr.eval, Expr.lazy, h.eval_eq]
  | .binary h h' => by simp only [Expr.eval, Expr.lazy, h.eval_eq, h'.eval_eq]
  | .conditional h _ _ h' _ h'' => by
    simp only [Expr.eval, Expr.lazy, h.eval_eq, h'.eval_eq, h''.eval_eq]
    rfl
  | .element hb h => by
    simp only [Expr.eval, Expr.lazy, Eval.lone, hb, h.eval_eq]
  | .standalone hb hbuilt h => by
    rw [h.eval_eq, (Chain.builds_of_build hbuilt).lazy_eq]
    simp only [Expr.lazy, Eval.lone, hb]
    rfl
  | .fragment h => by simp only [Expr.eval, Expr.lazy, h.eval_eq]

theorem WalksAll.evalAll_eq {d es k es'} :
    WalksAll d es k es' → Expr.evalAll host es' = Expr.lazyAll host Item.joined es
  | .nil => rfl
  | .cons h hs => by simp only [Expr.evalAll, Expr.lazyAll, h.eval_eq, hs.evalAll_eq]

theorem WalksElement.eval_eq {d e k e'} :
    WalksElement d e k e' → e'.eval host = e.lazyPlain host Item.joined
  | .mk _ _ ha _ hc => by
    simp only [Element.eval, Element.lazyPlain, ha.evalAll_eq, Child.evalAll_eq, hc.evalItems_eq,
      Functor.map_map]
    simp [Item.joined]

theorem WalksFragment.eval_eq {d f k f'} :
    WalksFragment d f k f' → f'.eval host = f.lazy host Item.joined
  | .mk _ _ _ h => by
    simp only [Fragment.eval, Fragment.lazy, Child.evalAll_eq, h.evalItems_eq, Functor.map_map]
    simp [Item.joined]

theorem WalksAttributes.evalAll_eq {d as k as'} :
    WalksAttributes d as k as' → Attribute.evalAll host as' = Attribute.lazyAll host Item.joined as
  | .nil => rfl
  | .bare h => by
    simp only [Attribute.evalAll, Attribute.lazyAll, Attribute.eval, Attribute.lazy, h.evalAll_eq]
  | .valued h hs => by
    simp only [Attribute.evalAll, Attribute.lazyAll, Attribute.eval, Attribute.lazy, h.eval_eq,
      hs.evalAll_eq]

theorem WalksValue.eval_eq {d v k v'} :
    WalksValue d v k v' → v'.eval host = v.lazy host Item.joined
  | .text | .empty => rfl
  | .container h => by simp only [AttrValue.eval, AttrValue.lazy, h.eval_eq]
  | .element hb h => by simp only [AttrValue.eval, AttrValue.lazy, Eval.lone, hb, h.eval_eq]
  | .standalone hb hbuilt h => by
    simp only [AttrValue.eval]
    rw [h.eval_eq, (Chain.builds_of_build hbuilt).lazy_eq]
    simp only [AttrValue.lazy, Eval.lone, hb]
    rfl

theorem WalksChildren.evalItems_eq {d cs k cs'} : WalksChildren d cs k cs' →
    Child.evalItems host cs' = Item.joinAll <$> Child.items host Item.joined false false cs
  | .nil => by simp [Child.evalItems, Child.items, Item.joinAll]
  | .text h => by
    rw [Child.evalItems_joinText, h.evalItems_eq]
    simp [Child.items, Item.joinAll]
  | .empty h => by
    rw [Child.evalItems_cons, h.evalItems_eq]
    simp [Child.items, Child.evalItem, Item.joinAll, Item.join]
  | .container h hs => by
    rw [Child.evalItems_cons, hs.evalItems_eq]
    simp [Child.items, Child.evalItem, h.eval_eq, Item.joinAll, Item.join]
  | .fragment h hs => by
    rw [Child.evalItems_cons, hs.evalItems_eq]
    simp [Child.items, Child.evalItem, h.eval_eq, Item.joinAll, Item.join]
  | .element hb h hs => by
    rw [Child.evalItems_cons, hs.evalItems_eq]
    simp [Child.items, Child.evalItem, hb, h.eval_eq, Item.joinAll, Item.join]
  | .chain hb hbuilt h hs => by
    rw [Child.evalItems_cons, hs.evalItems_eq]
    simp only [Child.items, hb, Chain.lazyNext_eq, Chain.items_takeLinks]
    rw [← (Chain.builds_of_build hbuilt).lazy_eq]
    simp [Child.evalItem, h.eval_eq, Item.joinAll, Item.join]

end

theorem WalksStatement.eval_eq {x k x'} (h : WalksStatement x k x') (shown : Program.Shown) :
    x'.eval host shown = x.lazy host Item.joined shown := by
  cases h with
  | imports => rfl
  | binding h | exportDefault h | expr h => simp only [Statement.eval, Statement.lazy, h.eval_eq]

/-- A sentinel import that is gone would have done nothing. -/
theorem WalksStatements.eval_eq {xs k xs'} (h : WalksStatements xs k xs')
    (shown : Program.Shown) :
    xs'.foldlM (fun shown s => s.val.eval host shown) shown =
      xs.foldlM (fun shown s => s.val.lazy host Item.joined shown) shown := by
  induction h generalizing shown with
  | nil => rfl
  | @removed x _ _ _ hx _ ih =>
    rw [List.foldlM_cons, ih]
    cases hv : x.val with
    | imports decl => simp [Statement.lazy]
    | _ => simp [hv, Statement.isSentinelImport] at hx
  | kept _ h _ ih => simp only [List.foldlM_cons, h.eval_eq, ih]

end Rewrite
end

/-- A program that a rewrite has gone through evaluates to what the program means, to a value or
to a fault, with the same calls and the same bindings on the way; texts that met because a link
between them is gone are tidied as one. -/
theorem Program.eval_of_rewrite {p q : Program} {counted : Stats}
    (h : p.rewrite = .ok (q, counted)) (host : Host) (session : Session) :
    (q.eval host).run session = (p.lazy host Item.joined).run session := by
  obtain ⟨-, hw⟩ := Program.walksStatements_of_rewrite h
  simp only [Program.eval, Program.lazy, hw.eval_eq]

/-- A host without functions, where branch elements are faults. -/
def Host.bare : Host := ⟨fun _ => none, .refused⟩

/-- `<div><If condition={a}>x</If>`, a line break, then `<Else>y</Else> tail</div>`. -/
def Program.tailSample : Program :=
  let named (s : String) : Spanned String := ⟨s, .zero⟩
  let first : Element := ⟨named "If",
    [⟨named conditionName, some (.container (some (.ident "a" .zero)) .zero), .zero⟩],
    [.text "x" .zero], false, .zero⟩
  let last : Element := ⟨named "Else", [], [.text "y" .zero], false, .zero⟩
  ⟨"a.jsx", [⟨.expr (.element ⟨named "div", [],
    [.element first, .text "\n" .zero, .element last, .text " tail" .zero], false, .zero⟩), .zero⟩],
    []⟩

theorem Program.tailSample_rewrite :
    ∃ q, tailSample.rewrite = .ok (q, ⟨1, 1, 0⟩) ∧
      (q.eval Host.bare).run .empty =
        (.ok (.element "div" [] [.string "y", .string "tail"]), .empty) := by
  refine ⟨?_, ?_⟩
  rotate_left
  refine ⟨?_, ?_⟩
  · cbv
    rfl
  · cbv

theorem Program.eval_of_rewrite_tailSample :
    ∃ q, tailSample.rewrite = .ok (q, ⟨1, 1, 0⟩) ∧
      (q.eval Host.bare).run .empty = (tailSample.lazy Host.bare Item.joined).run .empty := by
  obtain ⟨q, h, -⟩ := tailSample_rewrite
  exact ⟨q, h, eval_of_rewrite h Host.bare .empty⟩

/-- The space before the tail would stay if each text were tidied on its own. -/
theorem Program.eval_of_rewrite_ne_apart :
    ¬ ∀ (p q : Program) (counted : Stats), p.rewrite = .ok (q, counted) →
      ∀ (host : Host) (session : Session),
        (q.eval host).run session = (p.lazy host Item.apart).run session := by
  intro h
  obtain ⟨q, hq, hjoined⟩ := tailSample_rewrite
  have happart : (tailSample.lazy Host.bare Item.apart).run .empty =
      (.ok (.element "div" [] [.string "y", .string " tail"]), .empty) := by
    cbv
  have heq : ((.ok (.element "div" [] [.string "y", .string "tail"]), .empty) :
        Except EvalError Value × Session) =
      (.ok (.element "div" [] [.string "y", .string " tail"]), .empty) := by
    rw [← hjoined, ← happart]
    exact h _ _ _ hq Host.bare .empty
  simp at heq

end BranchMarkup
