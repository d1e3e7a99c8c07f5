import BranchMarkup.Proofs.Reading.Edges
/-! Where everything stands that a text is read as. Excerpts, maps and the order of comments cut the
text at spans, so a span has to be a part of it, and one of a node has to hold what belongs to the
node and nothing else. -/
namespace BranchMarkup

open BranchMarkup.Span (InOrder)
open Text (byteLength)

namespace TreeNode

theorem Throughout.within {P : TreeNode → Prop} {m n : TreeNode} (h : n.Throughout P)
    (hm : m.Within Element.attrs n) : m.Throughout P := by
  induction hm with
  | self => exact h
  | part hl _ ih => exact ih (h.part hl)

variable {source : List Char}

theorem Whole.places {n : TreeNode} (h : n.Whole source) : ∀ t ∈ n.places, t.Sound source := by
  have hnames := h.self.2
  have hparts : ∀ l ∈ n.parts Element.attrs, l.span.Sound source := fun l hl => Whole.span (h.part hl)
  cases n with
  | expr e =>
    cases e with
    | member object property s =>
      exact List.forall_mem_cons.2 ⟨hparts _ (List.mem_singleton_self _), hnames⟩
    | _ => exact List.forall_mem_map.2 hparts
  | element e =>
    refine List.forall_mem_cons.2 ⟨List.forall_mem_singleton.1 hnames, ?_⟩
    simp only [parts, List.forall_mem_append, List.forall_mem_map] at hparts ⊢
    exact hparts
  | attr a =>
    refine List.forall_mem_cons.2 ⟨List.forall_mem_singleton.1 hnames, ?_⟩
    simp only [parts, List.forall_mem_map] at hparts ⊢
    exact hparts
  | fragment | value | child => exact List.forall_mem_map.2 hparts

theorem inOrder_places {n : TreeNode} (hnested : n.Nested) (hedged : n.Edged source) :
    InOrder n.span.lower n.span.upper n.places := by
  have hparts : InOrder n.span.lower n.span.upper ((n.parts Element.attrs).map span) :=
    hnested.mono (Nat.le_add_right ..) (Nat.sub_le ..)
  cases n with
  | expr e =>
    cases e with
    | member => exact hedged
    | _ => exact hparts
  | element => exact hedged.1
  | attr => exact hedged
  | fragment | value | child => exact hparts

theorem Edged.bracketed {n : TreeNode} (h : n.Edged source) : n.Bracketed source := by
  cases n with
  | element => exact h.2
  | fragment => exact h
  | _ => trivial

/-! Branch elements -/

theorem branches_eq_all (n : TreeNode) : n.branches = n.all.flatMap ownBranch := by
  induction hn : sizeOf n using Nat.strongRecOn generalizing n with
  | ind k ih =>
    rw [branches_eq, all_eq, List.flatMap_cons, List.flatMap_assoc]
    congr 1
    refine List.flatMap_congr fun l hl => ?_
    exact ih _ (hn ▸ sizeOf_part (fun _ => List.Subset.refl _) hl) l rfl

theorem map_first_ownBranch (n : TreeNode) : n.ownBranch.map Span.first = n.linkStart := by
  cases n with
  | element e =>
    simp only [ownBranch, linkStart, link?]
    cases e.branch? <;> rfl
  | _ => rfl

end TreeNode

theorem Statement.Whole.places {source : List Char} {s : Statement} (h : s.Whole source) :
    ∀ t ∈ s.places, t.Sound source := by
  obtain ⟨hnames, hexpr⟩ := h
  cases s with
  | imports d => exact hnames
  | binding kind name e =>
    exact List.forall_mem_cons.2 ⟨List.forall_mem_singleton.1 hnames,
      List.forall_mem_singleton.2 (hexpr e rfl).span⟩
  | exportDefault e | expr e => exact List.forall_mem_singleton.2 (hexpr e rfl).span

theorem Laid.inOrder_statements {a b : Nat} {ss : List (Spanned Statement)}
    {cs : List (Spanned String)} (h : Laid b a ss cs) : InOrder a b (ss.map (·.span)) := by
  induction ss generalizing a cs with
  | nil => exact h.le
  | cons s ss ih =>
    obtain ⟨-, hlt, before, inside, after, -, hbefore, -, hss⟩ := h
    exact ⟨hbefore.le, hlt, ih hss⟩

namespace Program

/-- A program that stands in a text: all its spans are parts of the text, what belongs to a statement
or node is inside its span and one after another, as the statements are, and markup is in its tags. -/
structure StandsIn (source : List Char) (p : Program) : Prop where
  statements : ∀ s ∈ p.statements, s.span.Sound source ∧ ∀ t ∈ s.val.places, t.Sound source
  nodes : ∀ n, p.Has Element.attrs n → n.span.Sound source ∧ ∀ t ∈ n.places, t.Sound source
  comments : ∀ c ∈ p.comments, c.span.Sound source
  /-- A mark would hold a span of its own. -/
  unmarked : ∀ n, p.Has Element.attrs n → n.mark? = none
  apart : InOrder 0 (byteLength source) (p.statements.map (·.span))
  inStatements : ∀ s ∈ p.statements, InOrder s.span.lower s.span.upper s.val.places
  inNodes : ∀ n, p.Has Element.attrs n → InOrder n.span.lower n.span.upper n.places
  brackets : ∀ n, p.Has Element.attrs n → n.Bracketed source

theorem branches_eq_all (p : Program) :
    p.branches = (p.roots.flatMap TreeNode.all).flatMap TreeNode.ownBranch := by
  rw [branches, roots, List.flatMap_assoc, List.flatMap_assoc]
  refine List.flatMap_congr fun s _ => ?_
  cases s.val.expr? with
  | none => rfl
  | some e =>
    rw [Option.toList_some, List.map_singleton, List.flatMap_singleton]
    exact (TreeNode.expr e).branches_eq_all

section
variable {name source : String} {p : Program}

/-- The spans of what was read, and of the faults if any were found. -/
theorem sound_of_parse (name : String) (hlength : byteLength source.toList < UInt32.size) :
    (∀ p, parse name source = .ok p → (∀ s ∈ p.statements, Parse.SoundStatement source.toList s) ∧
      ∀ c ∈ p.comments, c.span.Sound source.toList) ∧
    ∀ fs, parse name source = .error fs → ∀ f ∈ fs, f.span.Sound source.toList := by
  have hgives : (Parse.readAll source.toList).2.Sound source.toList ∧
      ∀ s ∈ (Parse.readAll source.toList).1, Parse.SoundStatement source.toList s :=
    Parse.gives_statements _ _ (Parser.sound_ofText hlength)
  rw [Parse.parse_eq]
  split
  · refine ⟨?_, nofun⟩
    rintro _ ⟨⟩
    exact ⟨hgives.2, hgives.1.scanner.comments⟩
  · refine ⟨nofun, ?_⟩
    rintro _ ⟨⟩
    exact List.forall_mem_append.2 ⟨hgives.1.scanner.faults, hgives.1.faults⟩

theorem standsIn_of_parse (h : parse name source = .ok p)
    (hlength : byteLength source.toList < UInt32.size) : p.StandsIn source.toList := by
  obtain ⟨k, c, hreads, -, -, hclean⟩ := Parse.readsStatements_of_parse h
  have hedged := hreads.edged (Cursor.inText_ofText hlength) hclean
  have hlaid := laid_of_parse h (Text.byteLength_toList source ▸ hlength)
  have hmarks := unmarked_of_parse h
  obtain ⟨hsound, hcomments⟩ := (sound_of_parse name hlength).1 p h
  have hnodes : ∀ n, p.Has Element.attrs n → n.Whole source.toList ∧ n.Nested ∧
      n.Edged source.toList ∧ n.mark? = none := by
    rintro n ⟨s, hs, e, he, hn⟩
    have hroot : TreeNode.expr e ∈ p.roots :=
      List.mem_flatMap.2 ⟨s, hs, List.mem_map.2 ⟨e, Option.mem_toList.2 he, rfl⟩⟩
    exact ⟨((hsound s hs).2.2 e he).within hn, ((hlaid.holds s hs).1 e he).1 n hn,
      (hedged s hs).2 e he n hn, hmarks _ hroot n hn⟩
  exact
    { statements := fun s hs => ⟨(hsound s hs).1, (hsound s hs).2.places⟩
      nodes := fun n hn => ⟨(hnodes n hn).1.span, (hnodes n hn).1.places⟩
      comments := hcomments
      unmarked := fun n hn => (hnodes n hn).2.2.2
      apart := Text.byteLength_toList source ▸ hlaid.inOrder_statements
      inStatements := fun s hs => (hedged s hs).1
      inNodes := fun n hn => TreeNode.inOrder_places (hnodes n hn).2.1 (hnodes n hn).2.2.1
      brackets := fun n hn => (hnodes n hn).2.2.1.bracketed }

theorem pairwise_branches (h : parse name source = .ok p)
    (hlength : byteLength source.toList < UInt32.size) :
    p.branches.Pairwise fun s t => s.lower < t.lower := by
  have hlaid := laid_of_parse h (Text.byteLength_toList source ▸ hlength)
  have hinOrder := hlaid.inOrder_collected fun _ hn => hn.linkStart
  have hstarts : (p.roots.flatMap fun r => r.all.flatMap TreeNode.linkStart) =
      p.branches.map Span.first := by
    rw [branches_eq_all, List.map_flatMap, List.flatMap_assoc]
    simp only [TreeNode.map_first_ownBranch]
  change InOrder 0 source.utf8ByteSize
    (p.roots.flatMap fun r => r.all.flatMap TreeNode.linkStart) at hinOrder
  rw [hstarts] at hinOrder
  have hbounds := hinOrder.bounds
  have hpairwise := hinOrder.pairwise
  rw [List.forall_mem_map] at hbounds
  rw [List.pairwise_map] at hpairwise
  refine hpairwise.imp_of_mem fun {s t} hs _ hle => ?_
  exact Nat.lt_of_lt_of_le (hbounds s hs).2.1 hle

end

/-- Of a text whose places fit the words they are stored in: what it is read as stands in it, its
branch elements are listed once each, in the order in which they begin, and where it cannot be read
every diagnostic is about a part of it. -/
theorem spans_of_parse (name source : String) (hlength : source.utf8ByteSize < UInt32.size) :
    (∀ p, parse name source = .ok p → p.StandsIn source.toList ∧
      p.branches = (p.roots.flatMap TreeNode.all).flatMap TreeNode.ownBranch ∧
      p.branches.Pairwise fun s t => s.lower < t.lower) ∧
    ∀ fs, parse name source = .error fs →
      ∀ f ∈ fs, (Fault.diagnostic f).span.Sound source.toList := by
  rw [← Text.byteLength_toList] at hlength
  exact ⟨fun p h => ⟨standsIn_of_parse h hlength, p.branches_eq_all, pairwise_branches h hlength⟩,
    (sound_of_parse name hlength).2⟩

/-- Two branch elements, one in the other, and characters of more than one byte around them. -/
theorem spans_of_parse_nested :
    (∃ p, parse "a.jsx" "é(<If a=\x7bb.ü\x7d>€<Else /></If>);" = .ok p ∧
      p.StandsIn "é(<If a=\x7bb.ü\x7d>€<Else /></If>);".toList ∧
      (∃ s t, p.branches = [s, t] ∧ s.lower < t.lower)) ∧
    ∃ f fs, parse "a.jsx" "<If>€" = .error (f :: fs) ∧
      (Fault.diagnostic f).span.Sound "<If>€".toList := by
  have hread : (parse "a.jsx" "é(<If a=\x7bb.ü\x7d>€<Else /></If>);").toOption.any
      (fun p => p.branches.length == 2) = true := by
    decide +kernel
  have hfails : (match parse "a.jsx" "<If>€" with
      | .error fs => !fs.isEmpty
      | .ok _ => false) = true := by
    decide +kernel
  refine ⟨?_, ?_⟩
  · obtain ⟨p, hp, htwo⟩ := exists_ok_of_any hread
    obtain ⟨hstands, -, hpairwise⟩ := (spans_of_parse _ _ (by decide)).1 p hp
    obtain ⟨s, t, hbranches⟩ := List.length_eq_two.1 (eq_of_beq htwo)
    rw [hbranches, List.pairwise_pair] at hpairwise
    exact ⟨p, hp, hstands, s, t, hbranches, hpairwise⟩
  · cases hp : parse "a.jsx" "<If>€" with
    | ok p => simp [hp] at hfails
    | error fs =>
      cases fs with
      | nil => simp [hp] at hfails
      | cons f fs =>
        exact ⟨f, fs, rfl, (spans_of_parse _ _ (by decide)).2 _ hp f List.mem_cons_self⟩

end Program
end BranchMarkup
