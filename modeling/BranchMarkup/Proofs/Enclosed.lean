import BranchMarkup.Proofs.Malformed
import BranchMarkup.Proofs.Roundtrip
/-! Strings in the printed form of a tree that need not come from a text. A literal has escapes for
whatever it holds. The text of a child and that of an attribute are printed as they are, so the one
ends at its first `<` or brace and the other at the next quote of the kind that was put around it. -/
namespace BranchMarkup

open Scanner (IsWord IsTagName IsNumber)

namespace TreeNode

/-- Names and numbers are cut whole, and a text has something in it. -/
def Named : TreeNode → Prop
  | expr (.literal (.number digits) _) => IsNumber digits.toList
  | expr (.ident name _) => IsIdent name
  | expr (.member _ property _) => IsWord .script property.val.toList
  | element e => IsTagName e.name.val.toList
  | attr a => IsTagName a.name.val.toList
  | child (.text s _) => s ≠ ""
  | _ => True

/-- The string that the node holds, if any, goes on up to where the node ends in print. -/
def Encloses : TreeNode → Prop
  | value (.text s _) => IsQuotable s
  | child (.text s _) => ∀ c ∈ s.toList, c ≠ '<' ∧ c ≠ '\x7b'
  | _ => True

/-- The child list is such as reading makes. -/
def Shaped : TreeNode → Prop
  | element e => (e.selfClosing = true → e.children = []) ∧ Chain.adjacentText? e.children = none
  | fragment f => Chain.adjacentText? f.children = none
  | _ => True

theorem legible_iff {n : TreeNode} : n.Legible ↔ n.Named ∧ n.Encloses ∧ n.Shaped := by
  cases n with
  | expr e =>
    cases e with
    | literal v => cases v <;> simp [Legible, Named, Encloses, Shaped]
    | _ => simp [Legible, Named, Encloses, Shaped]
  | value v => cases v <;> simp [Legible, Named, Encloses, Shaped]
  | child c => cases c <;> simp [Legible, Named, Encloses, Shaped, IsRawText]
  | element | fragment | attr => simp [Legible, Named, Encloses, Shaped]

theorem shaped_of_not_defect {n : TreeNode} (h : ∀ x s, ¬ n.Defect x s) : n.Shaped := by
  cases n with
  | element e =>
    have hshape : Chain.shapeDefect? e = none := by
      cases hd : Chain.shapeDefect? e with
      | none => rfl
      | some d => exact absurd (.element hd) (h d.1 d.2)
    exact (Chain.shapeDefect?_eq_none.1 hshape).2
  | fragment f =>
    cases hd : Chain.adjacentText? f.children with
    | none => exact hd
    | some s => exact absurd (.fragment hd) (h _ s)
  | _ => trivial

/-! Whether a tree can be read back does not depend on its spans and marks. -/

def bare : TreeNode → TreeNode
  | expr e => expr e.bare
  | element e => element e.bare
  | fragment f => fragment f.bare
  | attr a => attr ⟨a.name.bare, a.value.map AttrValue.bare, .zero⟩
  | value v => value v.bare
  | child c => child c.bare

end TreeNode

theorem Expr.bareAll_eq (es : List Expr) : Expr.bareAll es = es.map Expr.bare := by
  induction es with
  | nil => rfl
  | cons e es ih => simp only [Expr.bareAll, List.map_cons, ih]

theorem Child.bareAll_eq (cs : List Child) : Child.bareAll cs = cs.map Child.bare := by
  induction cs with
  | nil => rfl
  | cons c cs ih => simp only [Child.bareAll, List.map_cons, ih]

theorem Attribute.map_attr_bareAll (as : List Attribute) :
    (Attribute.bareAll as).map TreeNode.attr = (as.map TreeNode.attr).map TreeNode.bare := by
  induction as with
  | nil => rfl
  | cons a as ih =>
    rcases a with ⟨name, _ | v, s⟩ <;> simp only [Attribute.bareAll, List.map_cons, ih] <;> rfl

theorem Chain.adjacentText?_bareAll (cs : List Child) :
    adjacentText? (Child.bareAll cs) = none ↔ adjacentText? cs = none := by
  have htext (c : Child) : c.bare.isText = c.isText := by
    rcases c with _ | ⟨_ | _, _⟩ | _ | _ <;> rfl
  induction cs with
  | nil => rfl
  | cons c cs ih =>
    rw [Child.bareAll, adjacentText?_cons_eq_none, adjacentText?_cons_eq_none]
    refine and_congr ?_ ih
    rw [htext]
    cases cs with
    | nil => rfl
    | cons d cs => simp [Child.bareAll, htext]

namespace TreeNode

theorem parts_bare (n : TreeNode) :
    n.bare.parts Element.attrs = (n.parts Element.attrs).map bare := by
  cases n with
  | expr e => cases e <;> simp [bare, parts, Expr.bare, Expr.bareAll_eq]
  | element e =>
    cases e
    simp only [bare, parts, Element.bare, Attribute.map_attr_bareAll, Child.bareAll_eq, List.map_append,
      List.map_map]
    rfl
  | fragment f =>
    cases f
    simp only [bare, parts, Fragment.bare, Child.bareAll_eq, List.map_map]
    rfl
  | attr a => rcases a with ⟨_, _ | _, _⟩ <;> rfl
  | value v => rcases v with _ | ⟨_ | _, _⟩ | _ <;> rfl
  | child c => rcases c with _ | ⟨_ | _, _⟩ | _ | _ <;> rfl

theorem legible_bare (n : TreeNode) : n.bare.Legible ↔ n.Legible := by
  cases n with
  | expr e =>
    cases e with
    | literal v => cases v <;> rfl
    | _ => rfl
  | element e =>
    cases e
    simp only [bare, Legible, Element.bare, Chain.adjacentText?_bareAll, Spanned.bare]
    cases ‹List Child› <;> simp [Child.bareAll]
  | fragment f =>
    cases f
    simp only [bare, Legible, Fragment.bare, Chain.adjacentText?_bareAll]
  | attr a => rfl
  | value v => rcases v with _ | ⟨_ | _, _⟩ | _ <;> rfl
  | child c => rcases c with _ | ⟨_ | _, _⟩ | _ | _ <;> rfl

theorem throughout_legible_bare (n : TreeNode) : n.bare.Throughout Legible ↔ n.Throughout Legible := by
  induction hn : sizeOf n using Nat.strongRecOn generalizing n with
  | ind k ih =>
    rw [throughout_iff, throughout_iff (n := n), legible_bare, parts_bare, List.forall_mem_map]
    refine and_congr_right fun _ => forall₂_congr fun l hl => ?_
    exact ih _ (hn ▸ sizeOf_part (fun _ => List.Subset.refl _) hl) l rfl

end TreeNode

theorem Expr.legible_bare (e : Expr) : e.bare.Legible ↔ e.Legible :=
  (TreeNode.expr e).throughout_legible_bare

theorem Statement.expr?_bare (s : Statement) : s.bare.expr? = s.expr?.map Expr.bare := by
  cases s <;> rfl

def Statement.Named : Statement → Prop
  | imports d => d.Legible
  | binding _ name _ => IsIdent name.val
  | _ => True

theorem Statement.legible_iff {s : Statement} :
    s.Legible ↔ s.Named ∧ ∀ e, s.expr? = some e → e.Legible := by
  cases s <;> simp [Legible, Named, expr?]

namespace Program

variable {p q : Program}

theorem legible_iff : (∀ s ∈ p.statements, s.val.Legible) ↔
    (∀ s ∈ p.statements, s.val.Named) ∧ ∀ n, p.Has Element.attrs n → n.Legible := by
  simp only [Statement.legible_iff, forall_and]
  refine and_congr_right fun _ => ⟨?_, ?_⟩
  · rintro h n ⟨s, hs, e, he, hn⟩
    exact h s hs e he n hn
  · exact fun h s hs e he n hn => h n ⟨s, hs, e, he, hn⟩

/-- Programs that differ in spans and marks alone can both be read back, or neither can. -/
theorem legible_of_bare (h : q.bare = p.bare) (hq : ∀ s ∈ q.statements, s.val.Legible) {n : TreeNode}
    (hn : p.Has Element.attrs n) : n.Legible := by
  obtain ⟨s, hs, e, he, hn⟩ := hn
  have hmem : s.val.bare ∈ q.bare := h ▸ List.mem_map_of_mem hs
  obtain ⟨t, ht, hbare⟩ := List.mem_map.1 hmem
  have hexpr := congrArg Statement.expr? hbare
  rw [Statement.expr?_bare, Statement.expr?_bare, he, Option.map_some] at hexpr
  obtain ⟨x, hx, hxe⟩ := Option.map_eq_some_iff.1 hexpr
  have hlegible := (Expr.legible_bare x).2 ((hq t ht).expr hx)
  rw [hxe, Expr.legible_bare] at hlegible
  exact hlegible n hn

/-- A program without comments that a rewrite accepts, with names and numbers that are cut whole, is
read back from its print exactly if no text of a child has a `<` or an opening brace in it, no text of
an attribute has quotes of both kinds, and what the rewrite does not look into, which is attributes of
branch elements that go with these, has child lists such as reading makes. What can go wrong besides is
that the print has too many levels. -/
theorem parse_format_of_enclosed {r : Program × Stats} (hcomments : p.comments = [])
    (hstatements : ∀ s ∈ p.statements, s.val.Named) (hnamed : ∀ n, p.Has Element.attrs n → n.Named)
    (hr : p.rewrite = .ok r) (hlength : p.format.utf8ByteSize < UInt32.size) (name : String) :
    ((∀ n, p.Has Element.attrs n → n.Encloses ∧ (¬ p.Has Element.liveAttrs n → n.Shaped)) →
      if p.levels ≤ maxNesting then
        ∃ q, parse name p.format = .ok q ∧ q.name = name ∧ q.bare = p.bare
      else ∃ fs, parse name p.format = .error fs ∧
        ∃ f ∈ fs, (Fault.diagnostic f).message = nestingMessage) ∧
    ((∃ q, parse name p.format = .ok q ∧ q.bare = p.bare) →
      ∀ n, p.Has Element.attrs n → n.Encloses ∧ (¬ p.Has Element.liveAttrs n → n.Shaped)) := by
  constructor
  · intro henclosed
    have hlegible : ∀ n, p.Has Element.attrs n → n.Legible := by
      intro n hn
      obtain ⟨hencloses, hshaped⟩ := henclosed n hn
      refine TreeNode.legible_iff.2 ⟨hnamed n hn, hencloses, ?_⟩
      by_cases hlive : p.Has Element.liveAttrs n
      · exact TreeNode.shaped_of_not_defect fun _ _ => not_defect_of_rewrite hr hlive
      · exact hshaped hlive
    have hprintable : p.Printable :=
      ⟨by rw [hcomments]; exact List.forall_mem_nil _, legible_iff.2 ⟨hstatements, hlegible⟩⟩
    obtain ⟨hread, hdeep⟩ := parse_format hprintable hlength name
    split
    · next hlevels => exact hread hlevels
    · next hlevels =>
      obtain ⟨fs, hfs, f, hf, htooDeep⟩ := hdeep (Nat.lt_of_not_le hlevels)
      refine ⟨fs, hfs, f, hf, ?_⟩
      rw [Fault.diagnostic, htooDeep]
      rfl
  · rintro ⟨q, hq, hbare⟩ n hn
    have hlegible := legible_of_bare hbare (printable_of_parse hq).statements hn
    obtain ⟨-, hencloses, hshaped⟩ := TreeNode.legible_iff.1 hlegible
    exact ⟨hencloses, fun _ => hshaped⟩

def paragraphSample (title text : String) : Element :=
  ⟨⟨"p", .zero⟩, [⟨⟨"title", .zero⟩, some (.text title .zero), .zero⟩], [.text text .zero], false, .zero⟩

/-- A tree that is not from a text, for strings that may be anything. -/
def hostSample (title text : String) : Program :=
  ⟨"tree.json", [⟨.expr (.element (paragraphSample title text)), .zero⟩], []⟩

theorem forall_hostSample {title text : String} {P : TreeNode → Prop} :
    (∀ n, (hostSample title text).Has Element.attrs n → P n) ↔
      P (.expr (.element (paragraphSample title text))) ∧ P (.element (paragraphSample title text)) ∧
        P (.attr ⟨⟨"title", .zero⟩, some (.text title .zero), .zero⟩) ∧ P (.value (.text title .zero)) ∧
          P (.child (.text text .zero)) := by
  have hwhole : (∀ n, (hostSample title text).Has Element.attrs n → P n) ↔
      (TreeNode.expr (.element (paragraphSample title text))).Throughout P := by
    refine forall_congr' fun n => imp_congr_left ⟨?_, fun hn => ⟨_, List.mem_singleton_self _, _, rfl, hn⟩⟩
    rintro ⟨s, hs, e, he, hn⟩
    obtain rfl := List.mem_singleton.1 hs
    obtain rfl := Option.some.inj he
    exact hn
  have hvalue : (TreeNode.value (.text title .zero)).Throughout P ↔ P (.value (.text title .zero)) := by
    rw [TreeNode.throughout_iff]
    exact and_iff_left (List.forall_mem_nil _)
  have htext : (TreeNode.child (.text text .zero)).Throughout P ↔ P (.child (.text text .zero)) := by
    rw [TreeNode.throughout_iff]
    exact and_iff_left (List.forall_mem_nil _)
  rw [hwhole, TreeNode.throughout_iff, TreeNode.parts, List.forall_mem_singleton,
    TreeNode.throughout_iff, TreeNode.parts, paragraphSample, List.map_singleton, List.map_singleton,
    List.singleton_append, List.forall_mem_cons, List.forall_mem_singleton, TreeNode.throughout_iff,
    TreeNode.parts, Option.toList_some, List.map_singleton, List.forall_mem_singleton, hvalue, htext,
    and_assoc]

theorem hostSample_named {title text : String} (htext : text ≠ "") :
    ∀ n, (hostSample title text).Has Element.attrs n → n.Named := by
  have hp : IsTagName "p".toList := .of_word ⟨'p', [], rfl, by decide, List.forall_mem_nil _⟩
  have htitle : IsTagName "title".toList :=
    .of_word ⟨'t', "itle".toList, rfl, by decide, List.all_eq_true.1 rfl⟩
  exact forall_hostSample.2 ⟨trivial, hp, htitle, trivial, htext⟩

/-- Quotes of one kind and a closing brace stay where they are; a tag in the text, and quotes of both
kinds in the title, do not. -/
theorem parse_format_of_enclosed_paragraph :
    (∃ q, parse "again.jsx" (hostSample "it's" "a \x7d b").format = .ok q ∧
      q.bare = (hostSample "it's" "a \x7d b").bare) ∧
    (¬ ∃ q, parse "again.jsx" (hostSample "it's" "x<b/>y").format = .ok q ∧
      q.bare = (hostSample "it's" "x<b/>y").bare) ∧
    ¬ ∃ q, parse "again.jsx" (hostSample "it's \"so\"" "x").format = .ok q ∧
      q.bare = (hostSample "it's \"so\"" "x").bare := by
  have haccepted (title text : String) (h : ((hostSample title text).rewrite.toOption.isSome &&
      (hostSample title text).print.text.utf8ByteSize < UInt32.size) = true) :
      (∃ r, (hostSample title text).rewrite = .ok r) ∧
        (hostSample title text).format.utf8ByteSize < UInt32.size := by
    rw [Bool.and_eq_true, decide_eq_true_eq,
      ← format_eq (p := hostSample title text) (List.forall_mem_nil _)] at h
    cases hr : (hostSample title text).rewrite with
    | error => simp [hr, Except.toOption] at h
    | ok r => exact ⟨⟨r, rfl⟩, h.2⟩
  have hstatements (title text : String) :
      ∀ s ∈ (hostSample title text).statements, s.val.Named :=
    List.forall_mem_singleton.2 trivial
  refine ⟨?_, ?_, ?_⟩
  · obtain ⟨⟨r, hr⟩, hlength⟩ := haccepted "it's" "a \x7d b" (by decide +kernel)
    have henclosed : ∀ n, (hostSample "it's" "a \x7d b").Has Element.attrs n →
        n.Encloses ∧ (¬ (hostSample "it's" "a \x7d b").Has Element.liveAttrs n → n.Shaped) :=
      forall_hostSample.2 ⟨⟨trivial, fun _ => trivial⟩, ⟨trivial, fun _ => ⟨by simp [paragraphSample], rfl⟩⟩,
        ⟨trivial, fun _ => trivial⟩, ⟨.inl (by decide), fun _ => trivial⟩,
        ⟨by simp [TreeNode.Encloses], fun _ => trivial⟩⟩
    have hread := (parse_format_of_enclosed rfl (hstatements _ _) (hostSample_named (by decide)) hr
      hlength "again.jsx").1 henclosed
    rw [if_pos (by decide +kernel)] at hread
    obtain ⟨q, hq, -, hbare⟩ := hread
    exact ⟨q, hq, hbare⟩
  · obtain ⟨⟨r, hr⟩, hlength⟩ := haccepted "it's" "x<b/>y" (by decide +kernel)
    intro hread
    have henclosed := (parse_format_of_enclosed rfl (hstatements _ _) (hostSample_named (by decide)) hr
      hlength "again.jsx").2 hread
    exact absurd (forall_hostSample.1 henclosed).2.2.2.2.1 (by simp [TreeNode.Encloses])
  · obtain ⟨⟨r, hr⟩, hlength⟩ := haccepted "it's \"so\"" "x" (by decide +kernel)
    intro hread
    have henclosed := (parse_format_of_enclosed rfl (hstatements _ _) (hostSample_named (by decide)) hr
      hlength "again.jsx").2 hread
    exact absurd (forall_hostSample.1 henclosed).2.2.2.1.1 (by simp [TreeNode.Encloses, IsQuotable])

end Program
end BranchMarkup
