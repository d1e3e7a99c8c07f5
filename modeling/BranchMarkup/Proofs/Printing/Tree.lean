import BranchMarkup.Proofs.Printing.Markup
/-! Every legible tree is read back. The recursion is that of the tree, one case for each kind of
node. -/
namespace BranchMarkup

mutual

theorem Expr.readsBack : (e : Expr) → e.Legible → e.ReadsBack
  | .literal .., h => Expr.readsBack_literal h
  | .ident .., h => Expr.readsBack_ident (Expr.legible_ident.1 h)
  | .member object _ _, h =>
    have ⟨hproperty, hobject⟩ := Expr.legible_member.1 h
    Expr.readsBack_member (object.readsBack hobject) hproperty
  | .call callee args _, h =>
    have ⟨hcallee, hargs⟩ := Expr.legible_call.1 h
    Expr.readsBack_call (callee.readsBack hcallee) (Expr.readsBackAll args hargs)
  | .unary _ operand _, h => Expr.readsBack_unary (operand.readsBack (Expr.legible_unary.1 h))
  | .binary _ lhs rhs _, h =>
    have ⟨hl, hr⟩ := Expr.legible_binary.1 h
    Expr.readsBack_binary (lhs.readsBack hl) (rhs.readsBack hr)
  | .conditional test consequent alternate _ _, h =>
    have ⟨ht, hx, hy⟩ := Expr.legible_conditional.1 h
    Expr.readsBack_conditional (test.readsBack ht) (consequent.readsBack hx) (alternate.readsBack hy)
  | .element e, h => (Element.readsBack e (Expr.legible_element.1 h)).expr
  | .fragment f, h => (Fragment.readsBack f (Expr.legible_fragment.1 h)).expr

theorem Expr.readsBackAll : (es : List Expr) → (∀ e ∈ es, e.Legible) → ∀ e ∈ es, e.ReadsBack
  | [], _ => nofun
  | e :: es, h =>
    have ⟨he, hes⟩ := List.forall_mem_cons.1 h
    List.forall_mem_cons.2 ⟨e.readsBack he, Expr.readsBackAll es hes⟩

theorem Element.readsBack : (e : Element) → e.Legible → (Markup.element e).ReadsBack
  | ⟨_, attrs, children, _, _⟩, h =>
    have ⟨⟨hname, hself, hadjacent⟩, has, hcs⟩ := Element.legible_iff.1 h
    readsBack_element hname hself hadjacent (Attribute.readsBackAll attrs has)
      (Child.readsBackAll children hcs)

theorem Fragment.readsBack : (f : Fragment) → f.Legible → (Markup.fragment f).ReadsBack
  | ⟨children, _, _⟩, h =>
    have ⟨hadjacent, hcs⟩ := Fragment.legible_iff.1 h
    readsBack_fragment hadjacent (Child.readsBackAll children hcs)

theorem Attribute.readsBackAll : (as : List Attribute) → (∀ a ∈ as, a.Legible) →
    ∀ a ∈ as, a.ReadsBack
  | [], _ => nofun
  | ⟨_, none, _⟩ :: as, h =>
    have ⟨ha, has⟩ := List.forall_mem_cons.1 h
    have ⟨hname, _⟩ := Attribute.legible_iff.1 ha
    List.forall_mem_cons.2 ⟨⟨hname, nofun⟩, Attribute.readsBackAll as has⟩
  | ⟨_, some value, _⟩ :: as, h =>
    have ⟨ha, has⟩ := List.forall_mem_cons.1 h
    have ⟨hname, hvalue⟩ := Attribute.legible_iff.1 ha
    have hback := value.readsBack (hvalue value rfl)
    List.forall_mem_cons.2 ⟨⟨hname, fun _ hv => Option.some.inj hv ▸ hback⟩,
      Attribute.readsBackAll as has⟩

theorem AttrValue.readsBack : (v : AttrValue) → v.Legible → v.ReadsBack
  | .text .., h => AttrValue.legible_text.1 h
  | .container none _, _ => nofun
  | .container (some e) _, h =>
    have hback := e.readsBack (AttrValue.legible_container.1 h e rfl)
    fun _ hx => Option.some.inj hx ▸ hback
  | .element e, h => Element.readsBack e (AttrValue.legible_element.1 h)

theorem Child.readsBack : (c : Child) → c.Legible → c.ReadsBack
  | .text .., h => Child.legible_text.1 h
  | .container none _, _ => nofun
  | .container (some e) _, h =>
    have hback := e.readsBack (Child.legible_container.1 h e rfl)
    fun _ hx => Option.some.inj hx ▸ hback
  | .element e, h => Element.readsBack e (Child.legible_element.1 h)
  | .fragment f, h => Fragment.readsBack f (Child.legible_fragment.1 h)

theorem Child.readsBackAll : (cs : List Child) → (∀ c ∈ cs, c.Legible) → ∀ c ∈ cs, c.ReadsBack
  | [], _ => nofun
  | c :: cs, h =>
    have ⟨hc, hcs⟩ := List.forall_mem_cons.1 h
    List.forall_mem_cons.2 ⟨c.readsBack hc, Child.readsBackAll cs hcs⟩

end

end BranchMarkup
