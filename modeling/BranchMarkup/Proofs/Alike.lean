import Mathlib.Data.List.Forall2
import BranchMarkup.Proofs.Legible
/-! Trees that are the same but for ignorable children. Child lists are compared by what is left of
them without those; a `Likeness` says what is asked of the texts and of the lists as they stand. -/
namespace BranchMarkup

structure Likeness where
  /-- Two texts among children. -/
  text : Spanned String → Spanned String → Prop
  /-- The child lists of two elements or fragments; `selfClosing` is that of the elements. -/
  lists (selfClosing : Bool) : List Child → List Child → Prop

namespace Likeness

/-- What is ignorable may be there or not. -/
def inserted : Likeness := ⟨Eq, fun _ _ _ => True⟩

/-- Besides, both lists are in good shape or neither is. -/
def shaped : Likeness where
  text := Eq
  lists selfClosing cs ds :=
    (Chain.adjacentText? cs = none ↔ Chain.adjacentText? ds = none) ∧
      (selfClosing = true → (cs = [] ↔ ds = []))

/-- Texts may stand elsewhere and begin with other blanks. -/
def indented : Likeness where
  text s t := Text.trimStart s.val.toList = Text.trimStart t.val.toList
  lists _ _ _ := True

end Likeness

section
variable (L : Likeness)

mutual

inductive Expr.Alike : Expr → Expr → Prop where
  | literal {v s} : Expr.Alike (.literal v s) (.literal v s)
  | ident {n s} : Expr.Alike (.ident n s) (.ident n s)
  | member {o p s o'} : Expr.Alike o o' → Expr.Alike (.member o p s) (.member o' p s)
  | call {c as s c' as'} : Expr.Alike c c' → Expr.AlikeAll as as' →
      Expr.Alike (.call c as s) (.call c' as' s)
  | unary {op o s o'} : Expr.Alike o o' → Expr.Alike (.unary op o s) (.unary op o' s)
  | binary {op x y s x' y'} : Expr.Alike x x' → Expr.Alike y y' →
      Expr.Alike (.binary op x y s) (.binary op x' y' s)
  | conditional {t c a p s t' c' a'} : Expr.Alike t t' → Expr.Alike c c' → Expr.Alike a a' →
      Expr.Alike (.conditional t c a p s) (.conditional t' c' a' p s)
  | element {e e'} : Element.Alike e e' → Expr.Alike (.element e) (.element e')
  | fragment {f f'} : Fragment.Alike f f' → Expr.Alike (.fragment f) (.fragment f')

inductive Expr.AlikeAll : List Expr → List Expr → Prop where
  | nil : Expr.AlikeAll [] []
  | cons {e es e' es'} : Expr.Alike e e' → Expr.AlikeAll es es' →
      Expr.AlikeAll (e :: es) (e' :: es')

inductive Element.Alike : Element → Element → Prop where
  | mk {n as cs c s as' cs'} : Attribute.AlikeAll as as' →
      Child.AlikeAll (cs.filter Child.isSignificant) (cs'.filter Child.isSignificant) →
      L.lists c cs cs' → Element.Alike ⟨n, as, cs, c, s⟩ ⟨n, as', cs', c, s⟩

inductive Fragment.Alike : Fragment → Fragment → Prop where
  | mk {cs p s cs'} :
      Child.AlikeAll (cs.filter Child.isSignificant) (cs'.filter Child.isSignificant) →
      L.lists false cs cs' → Fragment.Alike ⟨cs, p, s⟩ ⟨cs', p, s⟩

inductive Attribute.AlikeAll : List Attribute → List Attribute → Prop where
  | nil : Attribute.AlikeAll [] []
  | bare {n s as as'} : Attribute.AlikeAll as as' →
      Attribute.AlikeAll (⟨n, none, s⟩ :: as) (⟨n, none, s⟩ :: as')
  | valued {n v s as v' as'} : AttrValue.Alike v v' → Attribute.AlikeAll as as' →
      Attribute.AlikeAll (⟨n, some v, s⟩ :: as) (⟨n, some v', s⟩ :: as')

inductive AttrValue.Alike : AttrValue → AttrValue → Prop where
  | text {t s} : AttrValue.Alike (.text t s) (.text t s)
  | empty {s} : AttrValue.Alike (.container none s) (.container none s)
  | container {e s e'} : Expr.Alike e e' →
      AttrValue.Alike (.container (some e) s) (.container (some e') s)
  | element {e e'} : Element.Alike e e' → AttrValue.Alike (.element e) (.element e')

inductive Child.Alike : Child → Child → Prop where
  | text {t s t' s'} : L.text ⟨t, s⟩ ⟨t', s'⟩ → Child.Alike (.text t s) (.text t' s')
  | container {e s e'} : Expr.Alike e e' →
      Child.Alike (.container (some e) s) (.container (some e') s)
  | element {e e'} : Element.Alike e e' → Child.Alike (.element e) (.element e')
  | fragment {f f'} : Fragment.Alike f f' → Child.Alike (.fragment f) (.fragment f')

inductive Child.AlikeAll : List Child → List Child → Prop where
  | nil : Child.AlikeAll [] []
  | cons {c cs c' cs'} : Child.Alike c c' → Child.AlikeAll cs cs' →
      Child.AlikeAll (c :: cs) (c' :: cs')

end

inductive Statement.Alike : Statement → Statement → Prop where
  | imports {decl} : Statement.Alike (.imports decl) (.imports decl)
  | binding {kind name e e'} : e.Alike L e' →
      Statement.Alike (.binding kind name e) (.binding kind name e')
  | exportDefault {e e'} : e.Alike L e' → Statement.Alike (.exportDefault e) (.exportDefault e')
  | expr {e e'} : e.Alike L e' → Statement.Alike (.expr e) (.expr e')

/-- Programs that are the same but for ignorable children, and what `L` lets differ. -/
structure Program.Alike (p q : Program) : Prop where
  name : p.name = q.name
  comments : p.comments = q.comments
  statements : List.Forall₂ (fun s t => s.val.Alike L t.val ∧ s.span = t.span)
    p.statements q.statements

end

/-! What was put in is left out the other way round. -/

mutual

theorem Expr.Alike.symm {e f} : Expr.Alike .inserted e f → Expr.Alike .inserted f e
  | .literal => .literal
  | .ident => .ident
  | .member h => .member h.symm
  | .call h hs => .call h.symm hs.symm
  | .unary h => .unary h.symm
  | .binary h h' => .binary h.symm h'.symm
  | .conditional h h' h'' => .conditional h.symm h'.symm h''.symm
  | .element h => .element h.symm
  | .fragment h => .fragment h.symm

theorem Expr.AlikeAll.symm {es fs} : Expr.AlikeAll .inserted es fs → Expr.AlikeAll .inserted fs es
  | .nil => .nil
  | .cons h hs => .cons h.symm hs.symm

theorem Element.Alike.symm {e f} : Element.Alike .inserted e f → Element.Alike .inserted f e
  | .mk ha hc _ => .mk ha.symm hc.symm trivial

theorem Fragment.Alike.symm {f g} : Fragment.Alike .inserted f g → Fragment.Alike .inserted g f
  | .mk hc _ => .mk hc.symm trivial

theorem Attribute.AlikeAll.symm {as bs} :
    Attribute.AlikeAll .inserted as bs → Attribute.AlikeAll .inserted bs as
  | .nil => .nil
  | .bare hs => .bare hs.symm
  | .valued h hs => .valued h.symm hs.symm

theorem AttrValue.Alike.symm {v w} : AttrValue.Alike .inserted v w → AttrValue.Alike .inserted w v
  | .text => .text
  | .empty => .empty
  | .container h => .container h.symm
  | .element h => .element h.symm

theorem Child.Alike.symm {c d} : Child.Alike .inserted c d → Child.Alike .inserted d c
  | .text h => .text (Eq.symm h)
  | .container h => .container h.symm
  | .element h => .element h.symm
  | .fragment h => .fragment h.symm

theorem Child.AlikeAll.symm {cs ds} : Child.AlikeAll .inserted cs ds → Child.AlikeAll .inserted ds cs
  | .nil => .nil
  | .cons h hs => .cons h.symm hs.symm

end

theorem Statement.Alike.symm {s t} (h : Statement.Alike .inserted s t) :
    Statement.Alike .inserted t s := by
  cases h with
  | imports => exact .imports
  | binding h => exact .binding h.symm
  | exportDefault h => exact .exportDefault h.symm
  | expr h => exact .expr h.symm

theorem Program.Alike.symm {p q : Program} (h : p.Alike .inserted q) : q.Alike .inserted p where
  name := h.name.symm
  comments := h.comments.symm
  statements := by
    refine List.Forall₂.flip (h.statements.imp ?_)
    exact fun s t hst => ⟨hst.1.symm, hst.2.symm⟩

/-! Between trees in good shape all lists are in good shape. -/

/-- No two texts touch, and what closes itself has no children. -/
def TreeNode.Shapely : TreeNode → Prop
  | element e => Chain.adjacentText? e.children = none ∧ (e.selfClosing = true → e.children = [])
  | fragment f => Chain.adjacentText? f.children = none
  | _ => True

def TreeNode.AllShapely (n : TreeNode) : Prop := n.Throughout TreeNode.Shapely

def Program.Shapely (p : Program) : Prop :=
  ∀ n : TreeNode, p.Has Element.attrs n → n.Shapely

theorem Program.shapely_iff {p : Program} :
    p.Shapely ↔ ∀ s ∈ p.statements, ∀ e, s.val.expr? = some e → (TreeNode.expr e).AllShapely := by
  constructor
  · intro h s hs e he n hn
    exact h n ⟨s, hs, e, he, hn⟩
  · rintro h n ⟨s, hs, e, he, hn⟩
    exact h s hs e he n hn

theorem Child.allShapely_significant {n : TreeNode} {cs : List Child} (h : n.AllShapely)
    (hcs : ∀ c ∈ cs, TreeNode.child c ∈ n.parts Element.attrs) :
    ∀ c ∈ cs.filter Child.isSignificant, (TreeNode.child c).AllShapely :=
  fun c hc => h.part (hcs c (List.mem_filter.1 hc).1)

mutual

theorem Expr.Alike.shaped {e f} : Expr.Alike .inserted e f → (TreeNode.expr e).AllShapely →
    (TreeNode.expr f).AllShapely → Expr.Alike .shaped e f
  | .literal, _, _ => .literal
  | .ident, _, _ => .ident
  | .member h, he, hf => .member (h.shaped (he.part (.head _)) (hf.part (.head _)))
  | .call h hs, he, hf => by
    refine .call (h.shaped (he.part (.head _)) (hf.part (.head _))) (hs.shaped ?_ ?_)
    · exact fun x hx => he.part (List.mem_cons_of_mem _ (List.mem_map_of_mem hx))
    · exact fun x hx => hf.part (List.mem_cons_of_mem _ (List.mem_map_of_mem hx))
  | .unary h, he, hf => .unary (h.shaped (he.part (.head _)) (hf.part (.head _)))
  | .binary h h', he, hf =>
    .binary (h.shaped (he.part (.head _)) (hf.part (.head _)))
      (h'.shaped (he.part (.tail _ (.head _))) (hf.part (.tail _ (.head _))))
  | .conditional h h' h'', he, hf =>
    .conditional (h.shaped (he.part (.head _)) (hf.part (.head _)))
      (h'.shaped (he.part (.tail _ (.head _))) (hf.part (.tail _ (.head _))))
      (h''.shaped (he.part (.tail _ (.tail _ (.head _)))) (hf.part (.tail _ (.tail _ (.head _)))))
  | .element h, he, hf => .element (h.shaped (he.part (.head _)) (hf.part (.head _)))
  | .fragment h, he, hf => .fragment (h.shaped (he.part (.head _)) (hf.part (.head _)))

theorem Expr.AlikeAll.shaped {es fs} : Expr.AlikeAll .inserted es fs →
    (∀ e ∈ es, (TreeNode.expr e).AllShapely) → (∀ f ∈ fs, (TreeNode.expr f).AllShapely) →
    Expr.AlikeAll .shaped es fs
  | .nil, _, _ => .nil
  | .cons h hs, he, hf => by
    rw [List.forall_mem_cons] at he hf
    exact .cons (h.shaped he.1 hf.1) (hs.shaped he.2 hf.2)

theorem Element.Alike.shaped {e f} : Element.Alike .inserted e f →
    (TreeNode.element e).AllShapely → (TreeNode.element f).AllShapely → Element.Alike .shaped e f
  | .mk ha hc _, he, hf => by
    refine .mk (ha.shaped ?_ ?_) (hc.shaped ?_ ?_) ⟨?_, ?_⟩
    · exact fun a h => he.part (List.mem_append_left _ (List.mem_map_of_mem h))
    · exact fun a h => hf.part (List.mem_append_left _ (List.mem_map_of_mem h))
    · exact Child.allShapely_significant he fun c h =>
        List.mem_append_right _ (List.mem_map_of_mem h)
    · exact Child.allShapely_significant hf fun c h =>
        List.mem_append_right _ (List.mem_map_of_mem h)
    · exact iff_of_true he.self.1 hf.self.1
    · exact fun hclosing => iff_of_true (he.self.2 hclosing) (hf.self.2 hclosing)

theorem Fragment.Alike.shaped {f g} : Fragment.Alike .inserted f g →
    (TreeNode.fragment f).AllShapely → (TreeNode.fragment g).AllShapely →
    Fragment.Alike .shaped f g
  | .mk hc _, hf, hg => by
    refine .mk (hc.shaped ?_ ?_) ⟨iff_of_true hf.self hg.self, nofun⟩
    · exact Child.allShapely_significant hf fun c h => List.mem_map_of_mem h
    · exact Child.allShapely_significant hg fun c h => List.mem_map_of_mem h

theorem Attribute.AlikeAll.shaped {as bs} : Attribute.AlikeAll .inserted as bs →
    (∀ a ∈ as, (TreeNode.attr a).AllShapely) → (∀ b ∈ bs, (TreeNode.attr b).AllShapely) →
    Attribute.AlikeAll .shaped as bs
  | .nil, _, _ => .nil
  | .bare hs, ha, hb => by
    rw [List.forall_mem_cons] at ha hb
    exact .bare (hs.shaped ha.2 hb.2)
  | .valued h hs, ha, hb => by
    rw [List.forall_mem_cons] at ha hb
    exact .valued (h.shaped (ha.1.part (.head _)) (hb.1.part (.head _))) (hs.shaped ha.2 hb.2)

theorem AttrValue.Alike.shaped {v w} : AttrValue.Alike .inserted v w →
    (TreeNode.value v).AllShapely → (TreeNode.value w).AllShapely → AttrValue.Alike .shaped v w
  | .text, _, _ => .text
  | .empty, _, _ => .empty
  | .container h, hv, hw => .container (h.shaped (hv.part (.head _)) (hw.part (.head _)))
  | .element h, hv, hw => .element (h.shaped (hv.part (.head _)) (hw.part (.head _)))

theorem Child.Alike.shaped {c d} : Child.Alike .inserted c d →
    (TreeNode.child c).AllShapely → (TreeNode.child d).AllShapely → Child.Alike .shaped c d
  | .text h, _, _ => .text h
  | .container h, hc, hd => .container (h.shaped (hc.part (.head _)) (hd.part (.head _)))
  | .element h, hc, hd => .element (h.shaped (hc.part (.head _)) (hd.part (.head _)))
  | .fragment h, hc, hd => .fragment (h.shaped (hc.part (.head _)) (hd.part (.head _)))

theorem Child.AlikeAll.shaped {cs ds} : Child.AlikeAll .inserted cs ds →
    (∀ c ∈ cs, (TreeNode.child c).AllShapely) → (∀ d ∈ ds, (TreeNode.child d).AllShapely) →
    Child.AlikeAll .shaped cs ds
  | .nil, _, _ => .nil
  | .cons h hs, hc, hd => by
    rw [List.forall_mem_cons] at hc hd
    exact .cons (h.shaped hc.1 hd.1) (hs.shaped hc.2 hd.2)

end

theorem Program.Alike.shaped {p q : Program} (h : p.Alike .inserted q) (hp : p.Shapely)
    (hq : q.Shapely) : p.Alike .shaped q where
  name := h.name
  comments := h.comments
  statements := by
    have hpaired := (List.forall₂_and_left _ _).2 ⟨shapely_iff.1 hp, h.statements⟩
    have hflipped := (List.forall₂_and_left _ _).2 ⟨shapely_iff.1 hq, hpaired.flip⟩
    refine hflipped.flip.imp ?_
    rintro s t ⟨ht, hs, hst, hspan⟩
    refine ⟨?_, hspan⟩
    generalize s.val = x, t.val = y at *
    cases hst with
    | imports => exact .imports
    | binding h => exact .binding (h.shaped (hs _ rfl) (ht _ rfl))
    | exportDefault h => exact .exportDefault (h.shaped (hs _ rfl) (ht _ rfl))
    | expr h => exact .expr (h.shaped (hs _ rfl) (ht _ rfl))

/-! Trees that are alike hold conditionals that are alike, one for one. -/

section
variable {L : Likeness}

theorem TreeNode.forall₂_conditionals {m n : TreeNode}
    (h : List.Forall₂ (Expr.Alike L) m.rewritten?.toList n.rewritten?.toList)
    (hparts : List.Forall₂ (Expr.Alike L) ((m.parts Element.attrs).flatMap conditionals)
      ((n.parts Element.attrs).flatMap conditionals)) :
    List.Forall₂ (Expr.Alike L) m.conditionals n.conditionals := by
  rw [conditionals_eq, conditionals_eq]
  exact List.rel_append h hparts

theorem Child.conditionals_of_not_significant {c : Child} (h : c.isSignificant = false) :
    (TreeNode.child c).conditionals = [] := by
  rw [TreeNode.conditionals_eq]
  cases c with
  | text => rfl
  | container e =>
    cases e with
    | none => rfl
    | some e => cases h
  | element | fragment => cases h

theorem Child.conditionals_filter (cs : List Child) :
    ((cs.filter isSignificant).map TreeNode.child).flatMap TreeNode.conditionals =
      (cs.map TreeNode.child).flatMap TreeNode.conditionals := by
  induction cs with
  | nil => rfl
  | cons c cs ih =>
    cases hc : c.isSignificant with
    | true => simp only [hc, List.filter_cons_of_pos, List.map_cons, List.flatMap_cons, ih]
    | false =>
      simp only [hc, Bool.false_eq_true, not_false_eq_true, List.filter_cons_of_neg, List.map_cons,
        List.flatMap_cons, conditionals_of_not_significant hc, List.nil_append, ih]

mutual

theorem Expr.Alike.conditionals {e f} : Expr.Alike L e f →
    List.Forall₂ (Expr.Alike L) (TreeNode.expr e).conditionals (TreeNode.expr f).conditionals
  | .literal | .ident => TreeNode.forall₂_conditionals .nil .nil
  | .member h | .unary h =>
    TreeNode.forall₂_conditionals .nil (by simpa [TreeNode.parts] using h.conditionals)
  | .call h hs => TreeNode.forall₂_conditionals .nil (List.rel_append h.conditionals hs.conditionals)
  | .binary h h' => by
    have hparts := List.rel_append h.conditionals h'.conditionals
    exact TreeNode.forall₂_conditionals .nil (by simpa [TreeNode.parts] using hparts)
  | .conditional (p := p) h h' h'' => by
    have hparts := List.rel_append h.conditionals (List.rel_append h'.conditionals h''.conditionals)
    refine TreeNode.forall₂_conditionals ?_ (by simpa [TreeNode.parts] using hparts)
    cases p with
    | none => exact .nil
    | some o => exact .cons (.conditional h h' h'') .nil
  | .element h | .fragment h =>
    TreeNode.forall₂_conditionals .nil (by simpa [TreeNode.parts] using h.conditionals)

theorem Expr.AlikeAll.conditionals {es fs} : Expr.AlikeAll L es fs →
    List.Forall₂ (Expr.Alike L) ((es.map TreeNode.expr).flatMap TreeNode.conditionals)
      ((fs.map TreeNode.expr).flatMap TreeNode.conditionals)
  | .nil => .nil
  | .cons h hs => List.rel_append h.conditionals hs.conditionals

theorem Element.Alike.conditionals {e f} : Element.Alike L e f →
    List.Forall₂ (Expr.Alike L) (TreeNode.element e).conditionals
      (TreeNode.element f).conditionals
  | .mk ha hc _ => by
    refine TreeNode.forall₂_conditionals .nil ?_
    simp only [TreeNode.parts, List.flatMap_append]
    refine List.rel_append ha.conditionals ?_
    simpa only [Child.conditionals_filter] using hc.conditionals

theorem Fragment.Alike.conditionals {f g} : Fragment.Alike L f g →
    List.Forall₂ (Expr.Alike L) (TreeNode.fragment f).conditionals
      (TreeNode.fragment g).conditionals
  | .mk hc _ => by
    refine TreeNode.forall₂_conditionals .nil ?_
    simpa only [TreeNode.parts, Child.conditionals_filter] using hc.conditionals

theorem Attribute.AlikeAll.conditionals {as bs} : Attribute.AlikeAll L as bs →
    List.Forall₂ (Expr.Alike L) ((as.map TreeNode.attr).flatMap TreeNode.conditionals)
      ((bs.map TreeNode.attr).flatMap TreeNode.conditionals)
  | .nil => .nil
  | .bare hs => List.rel_append (TreeNode.forall₂_conditionals .nil .nil) hs.conditionals
  | .valued h hs =>
    List.rel_append
      (TreeNode.forall₂_conditionals .nil (by simpa [TreeNode.parts] using h.conditionals))
      hs.conditionals

theorem AttrValue.Alike.conditionals {v w} : AttrValue.Alike L v w →
    List.Forall₂ (Expr.Alike L) (TreeNode.value v).conditionals (TreeNode.value w).conditionals
  | .text | .empty => TreeNode.forall₂_conditionals .nil .nil
  | .container h | .element h =>
    TreeNode.forall₂_conditionals .nil (by simpa [TreeNode.parts] using h.conditionals)

theorem Child.Alike.conditionals {c d} : Child.Alike L c d →
    List.Forall₂ (Expr.Alike L) (TreeNode.child c).conditionals (TreeNode.child d).conditionals
  | .text _ => TreeNode.forall₂_conditionals .nil .nil
  | .container h | .element h | .fragment h =>
    TreeNode.forall₂_conditionals .nil (by simpa [TreeNode.parts] using h.conditionals)

theorem Child.AlikeAll.conditionals {cs ds} : Child.AlikeAll L cs ds →
    List.Forall₂ (Expr.Alike L) ((cs.map TreeNode.child).flatMap TreeNode.conditionals)
      ((ds.map TreeNode.child).flatMap TreeNode.conditionals)
  | .nil => .nil
  | .cons h hs => List.rel_append h.conditionals hs.conditionals

end

theorem Statement.Alike.conditionals {s t} (h : Statement.Alike L s t) :
    List.Forall₂ (Expr.Alike L) (s.expr?.toList.flatMap fun e => (TreeNode.expr e).conditionals)
      (t.expr?.toList.flatMap fun e => (TreeNode.expr e).conditionals) := by
  cases h with
  | imports => exact .nil
  | binding h | exportDefault h | expr h => simpa [Statement.expr?] using h.conditionals

theorem Program.Alike.conditionals {p q : Program} (h : p.Alike L q) :
    List.Forall₂ (Expr.Alike L) p.conditionals q.conditionals := by
  have hstatements := h.statements
  unfold Program.conditionals
  generalize p.statements = xs, q.statements = ys at hstatements
  induction hstatements with
  | nil => exact .nil
  | cons hst _ ih => exact List.rel_append hst.1.conditionals ih

end

end BranchMarkup
