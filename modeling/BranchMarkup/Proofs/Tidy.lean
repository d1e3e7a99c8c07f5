import Mathlib.Data.List.TakeWhile
import BranchMarkup.Text.Tidy
import BranchMarkup.Text.Blank
/-! How text shows: tidying keeps the words of a text, and a text that a line break comes before shows
as on its own, but for the blanks it begins with. -/
namespace BranchMarkup
namespace Text

/-- Text as it shows, which can be nothing at all. -/
def tidied (cs : List Char) : List Char := (tidy? cs).getD []

theorem tidied_eq (cs : List Char) : tidied cs = tidyLines true (cs.splitOn '\n') := by
  unfold tidied tidy?
  split
  · next h => exact h.symm
  · rfl

/-! Words -/

@[simp] theorem words_nil : words [] = [] := by simp [words]

theorem words_append_cons {c : Char} (hc : isBlank c = true) (x y : List Char) :
    words (x ++ c :: y) = words x ++ words y := by
  rw [words, List.splitOnP_append_cons _ _ hc, List.filter_append]
  rfl

theorem words_cons {c : Char} (hc : isBlank c = true) (y : List Char) : words (c :: y) = words y := by
  simpa using words_append_cons hc [] y

theorem words_blank_append {x : List Char} (hx : ∀ c ∈ x, isBlank c = true) (y : List Char) :
    words (x ++ y) = words y := by
  induction x with
  | nil => rfl
  | cons c x ih =>
    rw [List.forall_mem_cons] at hx
    rw [List.cons_append, words_cons hx.1, ih hx.2]

theorem words_eq_nil {x : List Char} (hx : ∀ c ∈ x, isBlank c = true) : words x = [] := by
  simpa using words_blank_append hx []

theorem words_append_blank {y : List Char} (hy : ∀ c ∈ y, isBlank c = true) (x : List Char) :
    words (x ++ y) = words x := by
  cases y with
  | nil => rw [List.append_nil]
  | cons c y =>
    rw [List.forall_mem_cons] at hy
    rw [words_append_cons hy.1, words_eq_nil hy.2, List.append_nil]

theorem eq_flatMap_splitOn {α : Type} {f : List Char → List α}
    (h : ∀ x y, f (x ++ '\n' :: y) = f x ++ f y) (cs : List Char) :
    f cs = (cs.splitOn '\n').flatMap f := by
  have hlines {lines : List (List Char)} (hne : lines ≠ []) :
      f (['\n'].intercalate lines) = lines.flatMap f := by
    induction lines with
    | nil => exact absurd rfl hne
    | cons line lines ih =>
      cases lines with
      | nil => simp
      | cons next lines =>
        rw [List.intercalate_cons_cons, List.append_assoc, List.singleton_append, h,
          ih (List.cons_ne_nil _ _)]
        exact List.flatMap_cons.symm
  rw [← hlines (List.splitOn_ne_nil _ _), List.intercalate_splitOn]

/-! Lines -/

theorem isInked_eq_false {line : List Char} :
    isInked line = false ↔ ∀ c ∈ line, c = ' ' ∨ c = '\t' ∨ c = '\r' := by
  simp only [isInked, List.any_eq_false, Bool.and_eq_true, decide_eq_true_eq, not_and, Decidable.not_not]
  grind

theorem isInked_append (x y : List Char) : isInked (x ++ y) = (isInked x || isInked y) :=
  List.any_append

theorem words_tabsToSpaces (line : List Char) : words (tabsToSpaces line) = words line := by
  have h (x : List Char) : words (x ++ tabsToSpaces line) = words (x ++ line) := by
    induction line generalizing x with
    | nil => rfl
    | cons c line ih =>
      rw [tabsToSpaces, List.map_cons, ← tabsToSpaces]
      split
      · next hc =>
        have hline := ih []
        rw [List.nil_append, List.nil_append] at hline
        rw [hc, words_append_cons (by decide), words_append_cons (by decide), hline]
      · simpa using ih (x ++ [c])
  exact h []

theorem words_dropSpaces (line : List Char) : words (dropSpaces line) = words line := by
  have h := words_blank_append (x := line.takeWhile (· = ' ')) (fun c hc => ?_) (dropSpaces line)
  · rw [← h, dropSpaces, List.takeWhile_append_dropWhile]
  · have hspace := List.all_eq_true.1 List.all_takeWhile c hc
    rw [decide_eq_true_eq] at hspace
    rw [hspace]
    decide

theorem dropEndSpaces_append (line : List Char) :
    ∃ tail, dropEndSpaces line ++ tail = line ∧ ∀ c ∈ tail, c = ' ' ∨ c = '\r' := by
  refine ⟨(line.reverse.takeWhile fun c => c = ' ' || c = '\r').reverse, ?_, fun c hc => ?_⟩
  · rw [dropEndSpaces, ← List.reverse_append, List.takeWhile_append_dropWhile, List.reverse_reverse]
  · simpa using List.mem_takeWhile_imp (List.mem_reverse.1 hc)

theorem words_dropEndSpaces (line : List Char) : words (dropEndSpaces line) = words line := by
  obtain ⟨tail, h, htail⟩ := dropEndSpaces_append line
  rw [← words_append_blank (fun c hc => ?_) (dropEndSpaces line), h]
  rcases htail c hc with rfl | rfl <;> decide

theorem words_tidyLine (isFirst isLast : Bool) (line : List Char) :
    words (tidyLine isFirst isLast line) = words line := by
  unfold tidyLine
  cases isFirst <;> cases isLast <;>
    simp only [Bool.false_eq_true, ↓reduceIte, words_dropEndSpaces, words_dropSpaces,
      words_tabsToSpaces]

theorem mem_tidyLine {isFirst isLast : Bool} {line : List Char} {c : Char}
    (h : c ∈ tidyLine isFirst isLast line) : c = ' ' ∨ c ∈ line := by
  have hspaces {l : List Char} (hc : c ∈ dropSpaces l) : c ∈ l := (List.dropWhile_suffix _).mem hc
  have hend {l : List Char} (hc : c ∈ dropEndSpaces l) : c ∈ l := by
    obtain ⟨tail, htail, -⟩ := dropEndSpaces_append l
    rw [← htail]
    exact List.mem_append_left _ hc
  have htabs (hc : c ∈ tabsToSpaces line) : c = ' ' ∨ c ∈ line := by
    obtain ⟨d, hd, rfl⟩ := List.mem_map.1 hc
    split
    · exact .inl rfl
    · exact .inr hd
  unfold tidyLine at h
  cases isFirst <;> cases isLast <;> simp only [Bool.false_eq_true, ↓reduceIte] at h
  · exact htabs (hspaces (hend h))
  · exact htabs (hspaces h)
  · exact htabs (hend h)
  · exact htabs h

theorem mem_tidyLines {isFirst : Bool} {lines : List (List Char)} {c : Char}
    (h : c ∈ tidyLines isFirst lines) : c = ' ' ∨ ∃ line ∈ lines, c ∈ line := by
  induction lines generalizing isFirst with
  | nil => cases h
  | cons line lines ih =>
    have hrest (h : c ∈ tidyLines false lines) : c = ' ' ∨ ∃ l ∈ line :: lines, c ∈ l :=
      (ih h).imp_right fun ⟨l, hl, hc⟩ => ⟨l, List.mem_cons_of_mem _ hl, hc⟩
    rw [tidyLines] at h
    split at h
    · exact hrest h
    · rcases List.mem_append.1 h with h | h
      · rcases List.mem_append.1 h with h | h
        · exact (mem_tidyLine h).imp_right fun hc => ⟨line, List.mem_cons_self, hc⟩
        · split at h
          · cases h
          · exact .inl (List.mem_singleton.1 h)
      · exact hrest h

theorem words_tidyLines (isFirst : Bool) (lines : List (List Char)) :
    words (tidyLines isFirst lines) = lines.flatMap words := by
  induction lines generalizing isFirst with
  | nil => exact words_nil
  | cons line lines ih =>
    rw [List.flatMap_cons, ← words_tidyLine isFirst lines.isEmpty line, ← ih false, tidyLines]
    split
    · next h => rw [h, words_nil, List.nil_append]
    split
    · next hink =>
      -- No ink follows, so what follows are blanks.
      rw [Bool.and_eq_true, Bool.not_eq_true', List.any_eq_false] at hink
      have hblank : ∀ c ∈ tidyLines false lines, isBlank c = true := by
        intro c hc
        rcases mem_tidyLines hc with rfl | ⟨l, hl, hc⟩
        · decide
        · rcases isInked_eq_false.1 (Bool.eq_false_iff.2 (hink.2 l hl)) c hc with rfl | rfl | rfl <;> decide
      rw [List.append_nil, words_append_blank hblank, words_eq_nil hblank, List.append_nil]
    · rw [List.append_assoc, List.singleton_append, words_append_cons (by decide)]

/-- What shows of a text are its words, in order. -/
theorem words_tidied (cs : List Char) : words (tidied cs) = words cs := by
  rw [tidied_eq, words_tidyLines, ← eq_flatMap_splitOn (words_append_cons (by decide))]

/-! Ink -/

/-- What is neither a space, a tab, a carriage return nor a line break. -/
def ink (cs : List Char) : List Char :=
  cs.filter fun c => c ≠ ' ' && c ≠ '\t' && c ≠ '\r' && c ≠ '\n'

theorem ink_append (x y : List Char) : ink (x ++ y) = ink x ++ ink y := List.filter_append ..

theorem ink_flatMap {α : Type} (f : α → List Char) (xs : List α) :
    ink (xs.flatMap f) = xs.flatMap fun x => ink (f x) := List.filter_flatMap ..

theorem ink_eq_nil {x : List Char} (h : ∀ c ∈ x, c = ' ' ∨ c = '\r') : ink x = [] := by
  rw [ink, List.filter_eq_nil_iff]
  intro c hc
  rcases h c hc with rfl | rfl <;> decide

theorem ink_tidyLine (isFirst isLast : Bool) (line : List Char) :
    ink (tidyLine isFirst isLast line) = ink line := by
  have htabs : ink (tabsToSpaces line) = ink line := by
    induction line with
    | nil => rfl
    | cons c line ih =>
      rw [tabsToSpaces, List.map_cons, ← tabsToSpaces, ← List.singleton_append, ink_append, ih,
        ← List.singleton_append (l := line), ink_append]
      split
      · next hc => rw [hc]; rfl
      · rfl
  have hstart (l : List Char) : ink (dropSpaces l) = ink l := by
    have hspaces : ink (l.takeWhile (· = ' ')) = [] :=
      ink_eq_nil fun c hc => .inl (by simpa using List.mem_takeWhile_imp hc)
    have happend := ink_append (l.takeWhile (· = ' ')) (dropSpaces l)
    rwa [dropSpaces, List.takeWhile_append_dropWhile, hspaces, List.nil_append, eq_comm] at happend
  have hend (l : List Char) : ink (dropEndSpaces l) = ink l := by
    obtain ⟨tail, htail, hspaces⟩ := dropEndSpaces_append l
    rw [← congrArg ink htail, ink_append, ink_eq_nil hspaces, List.append_nil]
  unfold tidyLine
  cases isFirst <;> cases isLast <;>
    simp only [Bool.false_eq_true, ↓reduceIte, hend, hstart, htabs]

theorem ink_tidyLines (isFirst : Bool) (lines : List (List Char)) :
    ink (tidyLines isFirst lines) = lines.flatMap ink := by
  induction lines generalizing isFirst with
  | nil => rfl
  | cons line lines ih =>
    rw [List.flatMap_cons, ← ink_tidyLine isFirst lines.isEmpty line, ← ih false, tidyLines]
    split
    · next h => rw [h]; rfl
    · rw [ink_append, ink_append]
      split
      · rw [show ink [] = [] from rfl, List.append_nil]
      · rw [show ink [' '] = [] from rfl, List.append_nil]

/-- All ink of a text shows, in order. -/
theorem ink_tidied (cs : List Char) : ink (tidied cs) = ink cs := by
  have hbreak (x y : List Char) : ink (x ++ '\n' :: y) = ink x ++ ink y := by
    rw [ink_append, ink, ink, ink, List.filter_cons_of_neg (by decide)]
  rw [tidied_eq, ink_tidyLines, ← eq_flatMap_splitOn hbreak]

/-! Line breaks -/

/-- Blank lines and what indents the line after them. -/
def IsIndent (cs : List Char) : Prop :=
  ∃ above indent, cs = above ++ '\n' :: indent ∧
    (∀ c ∈ above, c = ' ' ∨ c = '\t' ∨ c = '\r' ∨ c = '\n') ∧ ∀ c ∈ indent, c = ' ' ∨ c = '\t'

theorem IsIndent.append {a b : List Char} (ha : IsIndent a) (hb : IsIndent b) :
    IsIndent (a ++ b) := by
  obtain ⟨above, indent, rfl, habove, hindent⟩ := ha
  obtain ⟨above', indent', rfl, habove', hindent'⟩ := hb
  refine ⟨above ++ '\n' :: indent ++ above', indent', by simp, ?_, hindent'⟩
  simp only [List.forall_mem_append, List.forall_mem_cons]
  refine ⟨⟨habove, by simp, fun c hc => ?_⟩, habove'⟩
  exact (hindent c hc).imp_right .inl

theorem tidyLine_eq_nil {line : List Char} (h : isInked line = false) (isFirst : Bool) :
    tidyLine isFirst false line = [] := by
  have hend {l : List Char} (hl : ∀ c ∈ l, c = ' ' ∨ c = '\r') : dropEndSpaces l = [] := by
    rw [dropEndSpaces, List.reverse_eq_nil_iff, List.dropWhile_eq_nil_iff]
    intro c hc
    simpa using hl c (List.mem_reverse.1 hc)
  have htabs : ∀ c ∈ tabsToSpaces line, c = ' ' ∨ c = '\r' := by
    intro c hc
    obtain ⟨d, hd, rfl⟩ := List.mem_map.1 hc
    rcases isInked_eq_false.1 h d hd with rfl | rfl | rfl <;> decide
  cases isFirst with
  | true => exact hend htabs
  | false => exact hend fun c hc => htabs c ((List.dropWhile_suffix _).mem hc)

theorem tidyLines_append {lines : List (List Char)} (h : ∀ line ∈ lines, isInked line = false)
    (hne : lines ≠ []) {rest : List (List Char)} (hrest : rest ≠ []) (isFirst : Bool) :
    tidyLines isFirst (lines ++ rest) = tidyLines false rest := by
  induction lines generalizing isFirst with
  | nil => exact absurd rfl hne
  | cons line lines ih =>
    rw [List.forall_mem_cons] at h
    have hlast : (lines ++ rest).isEmpty = false := by simp [hrest]
    rw [List.cons_append, tidyLines, hlast, tidyLine_eq_nil h.1]
    cases lines with
    | nil => rfl
    | cons next lines => exact ih h.2 (List.cons_ne_nil _ _) false

theorem tidyLine_append {indent : List Char} (h : ∀ c ∈ indent, c = ' ' ∨ c = '\t') (isLast : Bool)
    (line : List Char) : tidyLine false isLast (indent ++ line) = tidyLine false isLast line := by
  have hdrop : dropSpaces (tabsToSpaces (indent ++ line)) = dropSpaces (tabsToSpaces line) := by
    rw [tabsToSpaces, List.map_append, ← tabsToSpaces]
    refine List.dropWhile_append_of_pos fun c hc => ?_
    obtain ⟨d, hd, rfl⟩ := List.mem_map.1 hc
    rcases h d hd with rfl | rfl <;> decide
  simp only [tidyLine, Bool.false_eq_true, ↓reduceIte, hdrop]

theorem not_isInked_of_mem_lines {cs : List Char}
    (h : ∀ c ∈ cs, c = ' ' ∨ c = '\t' ∨ c = '\r' ∨ c = '\n') :
    ∀ line ∈ cs.splitOn '\n', isInked line = false := by
  induction cs with
  | nil => simp [isInked]
  | cons c cs ih =>
    rw [List.forall_mem_cons] at h
    obtain ⟨line, lines, hlines⟩ := List.exists_cons_of_ne_nil (List.splitOn_ne_nil '\n' cs)
    have ih := ih h.2
    rw [hlines, List.forall_mem_cons] at ih
    rw [List.splitOn_cons_eq_if_modifyHead, hlines]
    split
    · exact List.forall_mem_cons.2 ⟨rfl, List.forall_mem_cons.2 ih⟩
    · next hc =>
      refine List.forall_mem_cons.2 ⟨?_, ih.2⟩
      have hblank : isInked [c] = false := by
        rw [isInked_eq_false]
        simpa [beq_iff_eq.not.1 hc] using h.1
      exact (isInked_append [c] line).trans (by rw [hblank, ih.1]; rfl)

theorem splitOn_append {indent : List Char} (h : '\n' ∉ indent) (b : List Char) :
    (indent ++ b).splitOn '\n' = (b.splitOn '\n').modifyHead (indent ++ ·) := by
  induction indent with
  | nil => exact (congrFun List.modifyHead_id _).symm
  | cons c indent ih =>
    rw [List.mem_cons, not_or] at h
    rw [List.cons_append, List.splitOn_cons_eq_if_modifyHead, if_neg (by simpa using Ne.symm h.1),
      ih h.2, List.modifyHead_modifyHead]
    rfl

/-- After an indent a text shows as if it had begun on another line. -/
theorem tidied_indent_append {a : List Char} (ha : IsIndent a) (b : List Char) :
    tidied (a ++ b) = tidyLines false (b.splitOn '\n') := by
  obtain ⟨above, indent, rfl, habove, hindent⟩ := ha
  have hbreak : '\n' ∉ indent := by
    intro h
    simpa using hindent _ h
  obtain ⟨line, lines, hlines⟩ := List.exists_cons_of_ne_nil (List.splitOn_ne_nil '\n' b)
  rw [tidied_eq, List.append_assoc, List.cons_append, List.splitOn_append_cons_self,
    splitOn_append hbreak, hlines, List.modifyHead_cons,
    tidyLines_append (not_isInked_of_mem_lines habove) (List.splitOn_ne_nil _ _) (List.cons_ne_nil _ _)]
  have hink : isInked indent = false :=
    isInked_eq_false.2 fun c hc => (hindent c hc).imp_right .inl
  simp only [tidyLines, tidyLine_append hindent, isInked_append, hink, Bool.false_or]

theorem tidied_indent {a : List Char} (ha : IsIndent a) : tidied a = [] := by
  rw [← List.append_nil a, tidied_indent_append ha]
  rfl

/-- The blanks that a text begins with do not show either way: there are none, or a line break comes
before any ink. -/
def BeginsFlush (cs : List Char) : Prop :=
  (∀ c ∈ cs.head?, c ≠ ' ' ∧ c ≠ '\t') ∨
    ∃ line rest, cs = line ++ '\n' :: rest ∧ isInked line = false

theorem head?_dropEndSpaces {line : List Char} {c : Char} (h : c ∈ (dropEndSpaces line).head?) :
    c ∈ line.head? := by
  obtain ⟨tail, htail, -⟩ := dropEndSpaces_append line
  rw [← htail]
  exact List.head?_append.trans (by rw [Option.mem_def.1 h]; rfl)

theorem dropEndSpaces_ne_nil {line : List Char} (h : isInked line = true) :
    dropEndSpaces (tabsToSpaces line) ≠ [] := by
  intro hnil
  obtain ⟨tail, htail, hblank⟩ := dropEndSpaces_append (tabsToSpaces line)
  rw [hnil, List.nil_append] at htail
  rw [htail, tabsToSpaces, List.forall_mem_map] at hblank
  rw [← Bool.not_eq_false, isInked_eq_false] at h
  refine h fun c hc => ?_
  have hmapped := hblank c hc
  split at hmapped
  · next htab => exact .inr (.inl htab)
  · exact hmapped.imp_right .inr

theorem head?_tidyLine {isLast : Bool} {line : List Char} :
    ' ' ∉ (tidyLine false isLast line).head? := by
  have hdrop : ' ' ∉ (dropSpaces (tabsToSpaces line)).head? := by
    intro h
    have hhead := List.head?_dropWhile_not (· = ' ') (tabsToSpaces line)
    rw [dropSpaces] at h
    rw [Option.mem_def.1 h] at hhead
    simp at hhead
  cases isLast with
  | true => exact hdrop
  | false => exact fun h => hdrop (head?_dropEndSpaces h)

theorem head?_tidyLines (lines : List (List Char)) : ' ' ∉ (tidyLines false lines).head? := by
  induction lines with
  | nil => simp [tidyLines]
  | cons line lines ih =>
    have hhead := @head?_tidyLine lines.isEmpty line
    rw [tidyLines]
    split
    · exact ih
    · next kept hkept =>
      cases hcs : tidyLine false lines.isEmpty line with
      | nil => exact absurd hcs hkept
      | cons c cs => simpa [hcs] using hhead

theorem beginsFlush_iff {cs line : List Char} {lines : List (List Char)}
    (h : cs.splitOn '\n' = line :: lines) :
    BeginsFlush cs ↔ (∀ c ∈ line.head?, c ≠ ' ' ∧ c ≠ '\t') ∨ lines ≠ [] ∧ isInked line = false := by
  have hsplit {line' rest : List Char} (hcs : cs = line' ++ '\n' :: rest)
      (hink : isInked line' = false) : line' = line ∧ lines ≠ [] := by
    have hbreak : '\n' ∉ line' := by
      intro hmem
      simpa using isInked_eq_false.1 hink _ hmem
    rw [hcs, List.splitOn_append_cons_self_of_not_mem hbreak, List.cons.injEq] at h
    exact ⟨h.1, h.2 ▸ List.splitOn_ne_nil _ _⟩
  have hcs : ['\n'].intercalate (cs.splitOn '\n') = cs := List.intercalate_splitOn '\n'
  rw [h] at hcs
  cases lines with
  | nil =>
    rw [List.intercalate_singleton] at hcs
    rw [BeginsFlush, hcs]
    refine or_congr_right ⟨fun ⟨line', rest, heq, hink⟩ => ?_, fun hno => absurd rfl hno.1⟩
    exact absurd rfl (hsplit heq hink).2
  | cons next lines =>
    rw [List.intercalate_cons_cons, List.append_assoc, List.singleton_append] at hcs
    constructor
    · rintro (hhead | ⟨line', rest, heq, hink⟩)
      · refine .inl fun c hc => hhead c ?_
        rw [← hcs, List.head?_append, Option.mem_def.1 hc]
        rfl
      · obtain ⟨rfl, hmore⟩ := hsplit heq hink
        exact .inr ⟨hmore, hink⟩
    · rintro (hhead | ⟨-, hink⟩)
      · cases line with
        | nil => exact .inr ⟨[], _, hcs.symm, rfl⟩
        | cons c line =>
          refine .inl ?_
          rw [← hcs]
          exact hhead
      · exact .inr ⟨line, _, hcs.symm, hink⟩

theorem tidyLine_blank {c : Char} (hc : c = ' ' ∨ c = '\t') {isLast : Bool} {line : List Char}
    (h : isLast = true ∨ isInked (c :: line) = true) :
    ∃ rest, tidyLine true isLast (c :: line) = ' ' :: rest := by
  have hspace : tabsToSpaces (c :: line) = ' ' :: tabsToSpaces line := by
    rcases hc with rfl | rfl <;> rfl
  cases isLast with
  | true => exact ⟨_, hspace⟩
  | false =>
    obtain ⟨d, rest, hrest⟩ :=
      List.exists_cons_of_ne_nil (dropEndSpaces_ne_nil (h.resolve_left Bool.false_ne_true))
    have hd : d ∈ (tabsToSpaces (c :: line)).head? := by
      apply head?_dropEndSpaces
      rw [hrest]
      rfl
    rw [hspace] at hd
    cases hd
    exact ⟨rest, hrest⟩

/-- Before a text that begins flush an indent makes no difference to how it shows, and before any
other it does. -/
theorem tidied_indent_append_eq_iff {a : List Char} (ha : IsIndent a) (b : List Char) :
    tidied (a ++ b) = tidied b ↔ BeginsFlush b := by
  obtain ⟨line, lines, hlines⟩ := List.exists_cons_of_ne_nil (List.splitOn_ne_nil '\n' b)
  rw [tidied_indent_append ha, tidied_eq, hlines, beginsFlush_iff hlines]
  constructor
  · intro heq
    by_contra hno
    rw [not_or] at hno
    obtain ⟨hblank, hink⟩ := hno
    apply head?_tidyLines (line :: lines)
    rw [heq]
    cases line with
    | nil => exact absurd nofun hblank
    | cons c line =>
      have hc : c = ' ' ∨ c = '\t' := by
        by_contra hc
        rw [not_or] at hc
        exact hblank (by rintro d ⟨⟩; exact hc)
      have hkept : lines.isEmpty = true ∨ isInked (c :: line) = true := by
        cases lines with
        | nil => exact .inl rfl
        | cons next lines => exact .inr (by simpa using hink)
      obtain ⟨rest, htidy⟩ := tidyLine_blank hc hkept
      rw [tidyLines, htidy]
      rfl
  · rintro (hhead | ⟨hmore, hink⟩)
    · have hdrop : dropSpaces (tabsToSpaces line) = tabsToSpaces line := by
        cases line with
        | nil => rfl
        | cons c line =>
          have hc := hhead c rfl
          simp [dropSpaces, tabsToSpaces, hc.1, hc.2]
      have hline : tidyLine false lines.isEmpty line = tidyLine true lines.isEmpty line := by
        simp only [tidyLine, Bool.false_eq_true, ↓reduceIte, hdrop]
      rw [tidyLines, tidyLines, hline]
    · have hlast : lines.isEmpty = false := by simpa using hmore
      rw [tidyLines, tidyLines, hlast, tidyLine_eq_nil hink, tidyLine_eq_nil hink]

/-! Texts side by side -/

theorem ink_tidied_join (texts : List String) :
    ink (tidied (String.join texts).toList) = texts.flatMap fun t => ink (tidied t.toList) := by
  simp only [ink_tidied, String.toList_join, ink_flatMap]

theorem words_tidied_join {earlier : List String} {last : String}
    (h : ∀ t ∈ earlier, t.toList.all isBlank = true) :
    words (tidied (String.join (earlier ++ [last])).toList) =
      (earlier ++ [last]).flatMap fun t => words (tidied t.toList) := by
  simp only [words_tidied, String.toList_join]
  induction earlier with
  | nil => simp
  | cons t earlier ih =>
    rw [List.forall_mem_cons] at h
    have hblank : ∀ c ∈ t.toList, isBlank c = true := List.all_eq_true.1 h.1
    rw [List.cons_append, List.flatMap_cons, List.flatMap_cons, words_blank_append hblank,
      words_eq_nil hblank, ih h.2, List.nil_append]

theorem tidied_join_eq_iff {earlier : List String} {last : String} (hne : earlier ≠ [])
    (h : ∀ t ∈ earlier, IsIndent t.toList) :
    tidied (String.join (earlier ++ [last])).toList =
        (earlier ++ [last]).flatMap (fun t => tidied t.toList) ↔
      BeginsFlush last.toList := by
  have hindent : IsIndent (earlier.flatMap String.toList) := by
    induction earlier with
    | nil => exact absurd rfl hne
    | cons t earlier ih =>
      rw [List.forall_mem_cons] at h
      rw [List.flatMap_cons]
      cases earlier with
      | nil => simpa using h.1
      | cons u earlier => exact h.1.append (ih (List.cons_ne_nil _ _) h.2)
  have hnone : earlier.flatMap (fun t => tidied t.toList) = [] :=
    List.flatMap_eq_nil_iff.2 fun t ht => tidied_indent (h t ht)
  rw [String.toList_join, List.flatMap_append, List.flatMap_append, hnone, List.nil_append]
  simpa using tidied_indent_append_eq_iff hindent last.toList

end Text
end BranchMarkup
