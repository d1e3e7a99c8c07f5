import Mathlib
import BranchMarkup.Proofs.Tidy
/-! Text line by line. The lines that trimming leaves show with one space between them, unless the last
of them has no ink: it then follows at once and a space follows it. -/
namespace BranchMarkup
namespace Text

/-- The lines of a passage, each trimmed where a line break is. What the passage begins and ends with
touches a tag where `isFirst` and `isLast` say so. -/
def trimmed (isFirst isLast : Bool) (lines : List (List Char)) : List (List Char) :=
  lines.mapIdx fun i line => tidyLine (isFirst && i == 0) (isLast && i + 1 == lines.length) line

/-- The trimmed lines that are not empty. -/
def kept (isFirst isLast : Bool) (lines : List (List Char)) : List (List Char) :=
  (trimmed isFirst isLast lines).filter (!·.isEmpty)

def keptLines (cs : List Char) : List (List Char) := kept true true (cs.splitOn '\n')

def spaced (lines : List (List Char)) : List Char := [' '].intercalate lines

def spaced? : List (List Char) → Option (List Char)
  | [] => none
  | line :: lines => some (spaced (line :: lines))

/-- The last line shows although it has no ink: blanks are all there is, or they are what follows the
last line break, a carriage return among them. -/
def EndsBlank (cs : List Char) : Prop :=
  (cs ≠ [] ∧ isInked cs = false) ∨
    ∃ above last, cs = above ++ '\n' :: last ∧ '\r' ∈ last ∧ isInked last = false

/-! Trimming -/

theorem isInked_tidyLine (isFirst isLast : Bool) (line : List Char) :
    isInked (tidyLine isFirst isLast line) = isInked line := by
  have htabs : isInked (tabsToSpaces line) = isInked line := by
    rw [tabsToSpaces, isInked, List.any_map, isInked]
    congr 1
    funext c
    by_cases hc : c = '\t' <;> simp [hc]
  have hstart (l : List Char) : isInked (dropSpaces l) = isInked l := by
    have hspaces : isInked (l.takeWhile (· = ' ')) = false :=
      isInked_eq_false.2 fun c hc => .inl (by simpa using List.mem_takeWhile_imp hc)
    have happend := isInked_append (l.takeWhile (· = ' ')) (dropSpaces l)
    rwa [dropSpaces, List.takeWhile_append_dropWhile, hspaces, Bool.false_or, eq_comm] at happend
  have hend (l : List Char) : isInked (dropEndSpaces l) = isInked l := by
    obtain ⟨tail, htail, hspaces⟩ := dropEndSpaces_append l
    have hblank : isInked tail = false := isInked_eq_false.2 fun c hc => (hspaces c hc).imp_right .inr
    rw [← congrArg isInked htail, isInked_append, hblank, Bool.or_false]
  unfold tidyLine
  cases isFirst <;> cases isLast <;>
    simp only [Bool.false_eq_true, ↓reduceIte, hend, hstart, htabs]

theorem tidyLine_ne_nil {isFirst isLast : Bool} {line : List Char} (h : isInked line = true) :
    tidyLine isFirst isLast line ≠ [] := by
  intro hnil
  rw [← isInked_tidyLine isFirst isLast, hnil] at h
  exact absurd h (by decide)

theorem tidyLine_eq_nil_iff {isFirst : Bool} {line : List Char} :
    tidyLine isFirst false line = [] ↔ isInked line = false :=
  ⟨fun h => Bool.not_eq_true _ ▸ fun hink => tidyLine_ne_nil hink h, fun h => tidyLine_eq_nil h isFirst⟩

theorem tidyLine_only_eq_nil_iff {line : List Char} : tidyLine true true line = [] ↔ line = [] :=
  List.map_eq_nil_iff

theorem tidyLine_last_eq_nil_iff {line : List Char} (h : isInked line = false) :
    tidyLine false true line = [] ↔ '\r' ∉ line := by
  have hline := isInked_eq_false.1 h
  show (tabsToSpaces line).dropWhile _ = [] ↔ _
  simp only [List.dropWhile_eq_nil_iff, tabsToSpaces, List.forall_mem_map, decide_eq_true_eq]
  refine ⟨fun hspace hc => absurd (hspace _ hc) (by decide), fun hno c hc => ?_⟩
  rcases hline c hc with rfl | rfl | rfl
  · rfl
  · rfl
  · exact absurd hc hno

/-! Passages -/

theorem trimmed_cons (isFirst isLast : Bool) (line : List Char) (lines : List (List Char)) :
    trimmed isFirst isLast (line :: lines) =
      tidyLine isFirst (isLast && lines.isEmpty) line :: trimmed false isLast lines := by
  have hlast : (0 + 1 == (line :: lines).length) = lines.isEmpty := by cases lines <;> rfl
  rw [trimmed, List.mapIdx_cons, hlast, beq_self_eq_true, Bool.and_true]
  simp [trimmed]

theorem trimmed_concat (isFirst isLast : Bool) (init : List (List Char)) (last : List Char) :
    trimmed isFirst isLast (init ++ [last]) =
      trimmed isFirst false init ++ [tidyLine (isFirst && init.isEmpty) isLast last] := by
  induction init generalizing isFirst with
  | nil => simp [trimmed]
  | cons line init ih =>
    have hmore : (init ++ [last]).isEmpty = false := by simp
    simp [trimmed_cons, ih, hmore]

theorem kept_cons (isFirst : Bool) (line : List Char) (lines : List (List Char)) :
    kept isFirst false (line :: lines) =
      if isInked line then tidyLine isFirst false line :: kept false false lines
      else kept false false lines := by
  rw [kept, trimmed_cons, List.filter_cons, ← kept, Bool.false_and]
  by_cases h : isInked line = true
  · simp [h, tidyLine_ne_nil h]
  · simp [h, tidyLine_eq_nil (Bool.eq_false_iff.2 h)]

theorem kept_eq_nil_iff {isFirst : Bool} {lines : List (List Char)} :
    kept isFirst false lines = [] ↔ lines.any isInked = false := by
  induction lines generalizing isFirst with
  | nil => exact iff_of_true rfl rfl
  | cons line lines ih =>
    rw [kept_cons, List.any_cons]
    split
    · next h => simp [h]
    · next h => rw [Bool.eq_false_iff.2 h, Bool.false_or, ih]

theorem kept_concat (isFirst : Bool) (init : List (List Char)) (last : List Char) :
    kept isFirst true (init ++ [last]) =
      kept isFirst false init ++ [tidyLine (isFirst && init.isEmpty) true last].filter (!·.isEmpty) := by
  rw [kept, trimmed_concat, List.filter_append, kept]

theorem spaced_cons (line : List Char) {lines : List (List Char)} (h : lines ≠ []) :
    spaced (line :: lines) = line ++ ' ' :: spaced lines := by
  rw [spaced, List.intercalate_cons_of_ne_nil h, List.append_assoc, List.singleton_append, spaced]

theorem intercalate_concat (sep : List Char) (lines : List (List Char)) (last : List Char) :
    sep.intercalate (lines ++ [last]) = lines.flatMap (· ++ sep) ++ last := by
  induction lines with
  | nil => exact List.intercalate_singleton
  | cons line lines ih =>
    rw [List.cons_append,
      List.intercalate_cons_of_ne_nil (List.append_ne_nil_of_right_ne_nil _ (List.cons_ne_nil _ _)), ih]
    simp

theorem spaced_eq_nil_iff {lines : List (List Char)} (h : ∀ line ∈ lines, line ≠ []) :
    spaced lines = [] ↔ lines = [] := by
  refine ⟨fun hnil => ?_, fun hnil => by rw [hnil]; rfl⟩
  rcases List.eq_nil_or_concat lines with rfl | ⟨init, last, rfl⟩
  · rfl
  · rw [List.concat_eq_append] at hnil h
    rw [spaced, intercalate_concat, List.append_eq_nil_iff] at hnil
    exact absurd hnil.2 (h last (by simp))

theorem ne_nil_of_mem_kept {isFirst isLast : Bool} {lines : List (List Char)} {line : List Char}
    (h : line ∈ kept isFirst isLast lines) : line ≠ [] := by
  simpa using (List.mem_filter.1 h).2

theorem tidyLines_cons (isFirst : Bool) (line : List Char) {rest : List (List Char)} (h : rest ≠ []) :
    tidyLines isFirst (line :: rest) =
      if isInked line then
        tidyLine isFirst false line ++ (if rest.any isInked then [' '] else []) ++ tidyLines false rest
      else tidyLines false rest := by
  have hmore : rest.isEmpty = false := by simpa using h
  rw [tidyLines, hmore]
  split
  · next hnil => rw [tidyLine_eq_nil_iff.1 hnil, if_neg Bool.false_ne_true]
  · next hline =>
    have hink : isInked line = true := by
      rw [← Bool.not_eq_false, ← @tidyLine_eq_nil_iff isFirst]
      exact hline
    cases hrest : rest.any isInked <;> simp [hink]

/-- A last line with ink has a space before it, and one without, where it shows, has a space after it. -/
theorem tidyLines_concat (isFirst : Bool) (init : List (List Char)) (last : List Char) :
    tidyLines isFirst (init ++ [last]) =
      if isInked last then
        (kept isFirst false init).flatMap (· ++ [' ']) ++ tidyLine (isFirst && init.isEmpty) true last
      else
        spaced (kept isFirst false init) ++
          if tidyLine (isFirst && init.isEmpty) true last = [] then []
          else tidyLine (isFirst && init.isEmpty) true last ++ [' '] := by
  induction init generalizing isFirst with
  | nil =>
    rw [List.nil_append, tidyLines]
    cases isInked last <;> split <;> simp_all [kept, trimmed, spaced, tidyLines]
  | cons line init ih =>
    have hmore : init ++ [last] ≠ [] := List.append_ne_nil_of_right_ne_nil _ (List.cons_ne_nil _ _)
    rw [List.cons_append, tidyLines_cons _ _ hmore, ih, kept_cons, List.any_append, List.any_cons]
    cases hline : isInked line
    · simp
    cases hlast : isInked last
    · cases hinit : init.any isInked
      · have hnone := (@kept_eq_nil_iff false _).2 hinit
        simp [hnone, spaced]
      · have hsome : kept false false init ≠ [] := by simp [kept_eq_nil_iff, hinit]
        simp [spaced_cons _ hsome]
    · simp

/-! Texts -/

theorem exists_lines (cs : List Char) : ∃ init last, cs.splitOn '\n' = init ++ [last] := by
  obtain ⟨init, last, h⟩ := (List.eq_nil_or_concat _).resolve_left (List.splitOn_ne_nil '\n' cs)
  exact ⟨init, last, by rw [h, List.concat_eq_append]⟩

section
variable {cs : List Char} {init : List (List Char)} {last : List Char}

theorem keptLines_eq (h : cs.splitOn '\n' = init ++ [last]) :
    keptLines cs = kept true false init ++ [tidyLine init.isEmpty true last].filter (!·.isEmpty) := by
  rw [keptLines, h, kept_concat, Bool.true_and]

theorem endsBlank_iff (h : cs.splitOn '\n' = init ++ [last]) :
    EndsBlank cs ↔ isInked last = false ∧ tidyLine init.isEmpty true last ≠ [] := by
  have hbreak {l : List Char} (hl : isInked l = false) : '\n' ∉ l := by
    intro hmem
    simpa using isInked_eq_false.1 hl _ hmem
  constructor
  · rintro (⟨hne, hink⟩ | ⟨above, last', rfl, hreturn, hink⟩)
    · rw [List.splitOn_eq_singleton (hbreak hink), ← List.nil_append [cs]] at h
      obtain ⟨rfl, hlast⟩ := List.append_inj' h rfl
      cases hlast
      exact ⟨hink, tidyLine_only_eq_nil_iff.not.2 hne⟩
    · rw [List.splitOn_append_cons_self, List.splitOn_eq_singleton (hbreak hink)] at h
      obtain ⟨rfl, hlast⟩ := List.append_inj' h rfl
      cases hlast
      rw [List.isEmpty_eq_false_iff.2 (List.splitOn_ne_nil _ _)]
      exact ⟨hink, (tidyLine_last_eq_nil_iff hink).not.2 (not_not.2 hreturn)⟩
  · rintro ⟨hink, hne⟩
    have hcs : ['\n'].intercalate (cs.splitOn '\n') = cs := List.intercalate_splitOn '\n'
    rw [h, intercalate_concat] at hcs
    rcases List.eq_nil_or_concat init with rfl | ⟨init, line, rfl⟩
    · cases hcs
      exact .inl ⟨tidyLine_only_eq_nil_iff.not.1 hne, hink⟩
    · rw [List.concat_eq_append] at hcs hne
      rw [List.isEmpty_eq_false_iff.2 (List.append_ne_nil_of_right_ne_nil _ (List.cons_ne_nil _ _))] at hne
      refine .inr ⟨init.flatMap (· ++ ['\n']) ++ line, last, ?_, ?_, hink⟩
      · simp [← hcs]
      · exact not_not.1 ((tidyLine_last_eq_nil_iff hink).not.1 hne)

theorem tidied_of_not_endsBlank (h : cs.splitOn '\n' = init ++ [last]) (hcs : ¬ EndsBlank cs) :
    tidied cs = spaced (keptLines cs) := by
  rw [endsBlank_iff h, not_and, not_not] at hcs
  rw [tidied_eq, h, tidyLines_concat, keptLines_eq h, Bool.true_and]
  split
  · next hink =>
    have hkept : (tidyLine init.isEmpty true last).isEmpty = false := by simpa using tidyLine_ne_nil hink
    rw [List.filter_cons_of_pos (by rw [hkept]; rfl), List.filter_nil, spaced, intercalate_concat]
  · next hink =>
    have hnone := hcs (Bool.eq_false_iff.2 hink)
    rw [if_pos hnone, hnone]
    simp

theorem keptLines_of_endsBlank (h : cs.splitOn '\n' = init ++ [last]) (hcs : EndsBlank cs) :
    keptLines cs = kept true false init ++ [tidyLine init.isEmpty true last] := by
  rw [endsBlank_iff h] at hcs
  rw [keptLines_eq h, List.filter_cons_of_pos (by simpa using hcs.2), List.filter_nil]

theorem tidied_of_endsBlank (h : cs.splitOn '\n' = init ++ [last]) (hcs : EndsBlank cs) :
    tidied cs = spaced (kept true false init) ++ tidyLine init.isEmpty true last ++ [' '] := by
  rw [endsBlank_iff h] at hcs
  rw [tidied_eq, h, tidyLines_concat, Bool.true_and, hcs.1, if_neg Bool.false_ne_true, if_neg hcs.2,
    List.append_assoc]

theorem tidied_ne_of_endsBlank (h : cs.splitOn '\n' = init ++ [last]) (hcs : EndsBlank cs) :
    tidied cs ≠ spaced (keptLines cs) := by
  intro heq
  rw [tidied_of_endsBlank h hcs, keptLines_of_endsBlank h hcs] at heq
  rcases List.eq_nil_or_concat (kept true false init) with hnone | ⟨above, line, hsome⟩
  · simp [hnone, spaced] at heq
  · have hinit : init.isEmpty = false := by
      rw [List.isEmpty_eq_false_iff]
      rintro rfl
      rw [List.concat_eq_append] at hsome
      exact List.append_ne_nil_of_right_ne_nil _ (List.cons_ne_nil _ _) hsome.symm
    have hlast := ((endsBlank_iff h).1 hcs).2
    rw [hinit] at heq hlast
    rw [hsome, List.concat_eq_append, spaced, intercalate_concat, spaced, intercalate_concat] at heq
    simp only [List.append_assoc, List.flatMap_append, List.append_cancel_left_eq,
      List.flatMap_singleton] at heq
    obtain ⟨c, rest, hc⟩ := List.exists_cons_of_ne_nil hlast
    rw [hc] at heq
    obtain ⟨rfl, -⟩ := List.cons.inj heq
    exact head?_tidyLine (by rw [hc]; rfl)

end

theorem tidied_eq_spaced_iff {cs : List Char} : tidied cs = spaced (keptLines cs) ↔ ¬ EndsBlank cs := by
  obtain ⟨init, last, h⟩ := exists_lines cs
  exact ⟨fun heq hcs => tidied_ne_of_endsBlank h hcs heq, tidied_of_not_endsBlank h⟩

theorem tidied_eq_nil_iff {cs : List Char} : tidied cs = [] ↔ keptLines cs = [] := by
  obtain ⟨init, last, h⟩ := exists_lines cs
  by_cases hcs : EndsBlank cs
  · rw [tidied_of_endsBlank h hcs, keptLines_of_endsBlank h hcs]
    simp
  · rw [tidied_of_not_endsBlank h hcs]
    exact spaced_eq_nil_iff fun line hline => ne_nil_of_mem_kept hline

theorem tidy?_eq_tidied (cs : List Char) : tidy? cs = if tidied cs = [] then none else some (tidied cs) := by
  rw [tidied_eq, tidy?]
  split
  · next h => rw [if_pos h]
  · next h => rw [if_neg h]

theorem spaced?_eq (lines : List (List Char)) :
    spaced? lines = if lines = [] then none else some (spaced lines) := by
  cases lines <;> rfl

/-- Trimmed lines show with one space between them, but where the text ends in blanks that show: there
the last space stands after them and not before. -/
theorem tidy_eq_spaced (cs : List Char) :
    (tidy? cs = none ↔ keptLines cs = []) ∧
      (tidy? cs = spaced? (keptLines cs) ↔ ¬ EndsBlank cs) ∧
      (EndsBlank cs → ∃ above last, keptLines cs = above ++ [last] ∧ isInked last = false ∧
        tidy? cs = some (spaced above ++ last ++ [' '])) := by
  rw [tidy?_eq_tidied, spaced?_eq, ← tidied_eq_spaced_iff]
  refine ⟨by simp [tidied_eq_nil_iff], ?_, fun hcs => ?_⟩
  · by_cases hnil : tidied cs = []
    · have hkept := tidied_eq_nil_iff.1 hnil
      rw [if_pos hnil, if_pos hkept, hnil, hkept]
      exact iff_of_true rfl rfl
    · rw [if_neg hnil, if_neg (tidied_eq_nil_iff.not.1 hnil), Option.some_inj]
  · obtain ⟨init, last, h⟩ := exists_lines cs
    have hlast := (endsBlank_iff h).1 hcs
    refine ⟨_, _, keptLines_of_endsBlank h hcs, ?_, ?_⟩
    · rw [isInked_tidyLine, hlast.1]
    · rw [← tidied_of_endsBlank h hcs, if_neg]
      rw [tidied_eq_nil_iff, keptLines_of_endsBlank h hcs]
      exact List.append_ne_nil_of_right_ne_nil _ (List.cons_ne_nil _ _)

/-- A lone space shows as two. -/
theorem tidy_eq_spaced_blank :
    EndsBlank [' '] ∧ keptLines [' '] = [[' ']] ∧ tidy? [' '] = some [' ', ' '] := by
  have hcs : EndsBlank [' '] := .inl ⟨List.cons_ne_nil _ _, rfl⟩
  obtain ⟨above, last, hkept, -, htidy⟩ := (tidy_eq_spaced [' ']).2.2 hcs
  have hlines : keptLines [' '] = [[' ']] := by decide
  obtain ⟨rfl, hlast⟩ := List.append_inj' (hkept.symm.trans (hlines.trans (List.nil_append _).symm)) rfl
  cases hlast
  exact ⟨hcs, hlines, htidy⟩

theorem exists_last_of_mem {c : Char} {cs : List Char} (h : c ∈ cs) :
    ∃ before after, cs = before ++ c :: after ∧ c ∉ after := by
  obtain ⟨after, before, hcs, hlast⟩ := List.eq_append_cons_of_mem (List.mem_reverse.2 h)
  refine ⟨before.reverse, after.reverse, ?_, by rwa [List.mem_reverse]⟩
  rw [← List.reverse_reverse cs, hcs]
  simp

/-- What does not show is what indents a line. -/
theorem tidied_eq_nil_iff_isIndent {cs : List Char} : tidied cs = [] ↔ cs = [] ∨ IsIndent cs := by
  refine ⟨fun hnil => ?_, fun h => h.elim (fun hnil => by rw [hnil]; rfl) tidied_indent⟩
  have hshown : ¬ EndsBlank cs := fun hcs => by
    obtain ⟨init, last, h⟩ := exists_lines cs
    rw [tidied_of_endsBlank h hcs] at hnil
    exact List.append_ne_nil_of_right_ne_nil _ (List.cons_ne_nil _ _) hnil
  rw [EndsBlank, not_or] at hshown
  have hblank : ∀ c ∈ cs, c = ' ' ∨ c = '\t' ∨ c = '\r' ∨ c = '\n' := by
    have hink := ink_tidied cs
    rw [hnil, show ink [] = [] from rfl, eq_comm, ink, List.filter_eq_nil_iff] at hink
    intro c hc
    have := hink c hc
    grind
  have hline {line : List Char} (hsub : line ⊆ cs) (hbreak : '\n' ∉ line) : isInked line = false := by
    rw [isInked_eq_false]
    intro c hc
    rcases hblank c (hsub hc) with h | h | h | rfl
    · exact .inl h
    · exact .inr (.inl h)
    · exact .inr (.inr h)
    · exact absurd hc hbreak
  by_cases hbreak : '\n' ∈ cs
  · obtain ⟨above, last, hcs, hlast⟩ := exists_last_of_mem hbreak
    have hlast : isInked last = false := hline (by rw [hcs]; simp) hlast
    have habove : above ⊆ cs := by rw [hcs]; simp
    refine .inr ⟨above, last, hcs, fun c hc => hblank c (habove hc), ?_⟩
    intro c hc
    rcases isInked_eq_false.1 hlast c hc with h | h | rfl
    · exact .inl h
    · exact .inr h
    · exact absurd ⟨_, _, hcs, hc, hlast⟩ hshown.2
  · left
    by_contra hne
    exact hshown.1 ⟨hne, hline (List.Subset.refl _) hbreak⟩

end Text
end BranchMarkup
