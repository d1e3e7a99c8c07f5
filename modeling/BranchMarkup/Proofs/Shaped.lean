import BranchMarkup.Proofs.Reading.Spelled
/-! The shape of every program that is read. Child lists are as reading text makes them, names and strings
can be written down again, no node stands for a branch, and nothing in the tree is there that the text
does not spell. -/
namespace BranchMarkup

/-- The children of a node that has a list of them. -/
def TreeNode.childList? : TreeNode → Option (List Child)
  | element e => some e.children
  | fragment f => some f.children
  | _ => none

/-- No two texts touch. -/
def TextsApart (cs : List Child) : Prop := cs.IsChain fun a b => ¬(a.isText = true ∧ b.isText = true)

theorem textsApart_of_adjacentText? {cs : List Child} (h : Chain.adjacentText? cs = none) :
    TextsApart cs := by
  induction cs with
  | nil => exact .nil
  | cons c cs ih =>
    obtain ⟨hhead, hcs⟩ := Chain.adjacentText?_cons_eq_none.1 h
    refine List.isChain_cons.2 ⟨fun d hd hboth => ?_, ih hcs⟩
    rw [hhead hboth.1 d hd] at hboth
    exact absurd hboth.2 (by decide)

theorem TreeNode.Legible.textsApart {n : TreeNode} (h : n.Legible) {cs : List Child}
    (hcs : n.childList? = some cs) : TextsApart cs := by
  cases n with
  | element e =>
    cases hcs
    exact textsApart_of_adjacentText? h.2.2
  | fragment f =>
    cases hcs
    exact textsApart_of_adjacentText? h
  | _ => cases hcs

namespace Program

/-- Of every program that is read: what stands in it can be read back (so names are words with joints,
raw text is not empty and holds neither `<` nor an opening brace, a self-closing element has no
children, and the text of an attribute leaves a quote for it), no two texts touch, no node is one that a
rewrite made, and everything that stands for a part of the text is spelled there, names, `null` and the
brackets of fragments among it. -/
theorem shape_of_parse {name source : String} {p : Program} (h : parse name source = .ok p) :
    (∀ s ∈ p.statements, s.val.Legible ∧ s.val.Spelled source.toList) ∧
      ∀ n, p.Has Element.attrs n → n.Legible ∧ n.mark? = none ∧ n.Spelled source.toList ∧
        ∀ cs, n.childList? = some cs → TextsApart cs := by
  obtain ⟨k, c, hreads, -, -, hclean⟩ := Parse.readsStatements_of_parse h
  have hlegible := hreads.legible (Cursor.cut_ofText source.toList)
  have hspelled := hreads.spelled (Cursor.shows_ofText source.toList) hclean
  refine ⟨fun s hs => ⟨hlegible s hs, hspelled s hs⟩, ?_⟩
  rintro n ⟨s, hs, e, he, hn⟩
  have hn₁ : n.Legible := (hlegible s hs).expr he n hn
  exact ⟨hn₁, hreads.unmarked s hs e he n hn, (hspelled s hs).2 e he n hn, fun _ => hn₁.textsApart⟩

/-- Names that reading makes up where they are missing, and an empty fragment and `null`; here all of them
are spelled. -/
def shapeSample : String := "_error_(<_error_ a='\"'>t<></>\x7bnull\x7d</_error_>)"

/-- The name that is called, if the expression is the call of a name. -/
def calledName? : Expr → Option String
  | .call (.ident name _) _ _ => some name
  | _ => none

theorem exists_call_of_calledName? {e : Expr} {name : String} (h : calledName? e = some name) :
    ∃ place args span, e = .call (.ident name place) args span := by
  unfold calledName? at h
  split at h <;> cases h
  exact ⟨_, _, _, rfl⟩

theorem shape_of_parse_sample : ∃ p s, parse "a.jsx" shapeSample = .ok p ∧
    p.Has Element.attrs (.expr (.ident "_error_" s)) ∧
      IdentSpelled shapeSample.toList ⟨"_error_", s⟩ := by
  have hread : ((parse "a.jsx" shapeSample).toOption.bind fun p => p.firstExpr?.bind calledName?) =
      some "_error_" := by
    decide +kernel
  obtain ⟨p, hp, e, he, hname⟩ := by simpa only [Option.bind_eq_some_iff] using hread
  obtain ⟨s, hs, hexpr⟩ := List.exists_of_findSome?_eq_some he
  obtain ⟨place, args, span, rfl⟩ := exists_call_of_calledName? hname
  have hparse : parse "a.jsx" shapeSample = .ok p := by
    cases h : parse "a.jsx" shapeSample with
    | error => simp [h, Except.toOption] at hp
    | ok q => simpa [h, Except.toOption] using hp
  have hhas : p.Has Element.attrs (.expr (.ident "_error_" place)) :=
    ⟨s, hs, _, hexpr, .part List.mem_cons_self .self⟩
  exact ⟨p, place, hparse, hhas, ((shape_of_parse hparse).2 _ hhas).2.2.1⟩

end Program
end BranchMarkup
