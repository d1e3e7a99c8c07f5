import Mathlib
import BranchMarkup.Diagnostic.Sheet
/-! Where a diagnostic points. What is laid out names a line and a column and marks a range, all
counted in characters, and it is given offsets that count bytes; so it points at its text where every
character up to the end of that text is one byte, and at the character of that number elsewhere. -/
namespace BranchMarkup
namespace Sheet

/-! Lines -/

theorem flatten_cutLines (cs : List Char) : (cutLines cs).flatten = cs := by
  fun_induction cutLines cs with
  | case1 => rfl
  | case2 cs ih => simp [ih]
  | case3 c cs _ hends ih => simp [ih]
  | case4 c cs _ hends hnil ih =>
    rw [hnil] at ih
    simp [← ih]
  | case5 c cs _ hends line lines hcut ih =>
    rw [hcut] at ih
    simp [← ih]

theorem map_chars_numberLines (number offset : Nat) (lines : List (List Char)) :
    (numberLines number offset lines).map (·.chars) = lines := by
  induction lines generalizing number offset with
  | nil => rfl
  | cons line lines ih => rw [numberLines, List.map_cons, ih]

theorem numberLines_eq_append {number offset : Nat} {lines : List (List Char)}
    {above below : List SourceLine} {l : SourceLine}
    (h : numberLines number offset lines = above ++ l :: below) :
    l.number = number + above.length ∧
      l.offset = offset + (above.flatMap (·.chars)).length := by
  induction lines generalizing number offset above with
  | nil => simp [numberLines] at h
  | cons line lines ih =>
    rw [numberLines] at h
    cases above with
    | nil =>
      cases (List.cons.inj h).1
      simp
    | cons first above =>
      obtain ⟨rfl, hrest⟩ := List.cons.inj h
      obtain ⟨hnumber, hoffset⟩ := ih hrest
      simp only [List.length_cons, List.flatMap_cons, List.length_append]
      omega

theorem flatMap_linesOf (source : List Char) : (linesOf source).flatMap (·.chars) = source := by
  rw [List.flatMap_def, linesOf, map_chars_numberLines, flatten_cutLines]

variable {source : List Char} {place : Nat} {l : SourceLine}

theorem eq_of_number_eq {k : SourceLine} (hl : l ∈ linesOf source) (hk : k ∈ linesOf source)
    (h : l.number = k.number) : l = k := by
  obtain ⟨above, below, hsplit⟩ := List.append_of_mem hl
  obtain ⟨above', below', hsplit'⟩ := List.append_of_mem hk
  have hnumber := (numberLines_eq_append hsplit).1
  have hnumber' := (numberLines_eq_append hsplit').1
  have hlength : above.length = above'.length := by omega
  exact (List.cons.inj (List.append_inj (hsplit.symm.trans hsplit') hlength).2).1

/-- The line of a place is the one of the character there. The place after the last character is on
the last line. -/
structure IsOn (source : List Char) (place : Nat) (l : SourceLine) : Prop where
  mem : l ∈ linesOf source
  offset_le : l.offset ≤ place
  before : place < l.stop ∨ place = l.stop ∧ l.stop = source.length

theorem isOn_of_lineAt? (h : lineAt? source place = some l) : IsOn source place l := by
  unfold lineAt? at h
  split at h
  · next hplace =>
    rw [List.findRev?_eq_find?_reverse, List.find?_eq_some_iff_append] at h
    obtain ⟨hl, below, above, hsplit, hbelow⟩ := h
    have hlines : linesOf source = above.reverse ++ l :: below.reverse := by
      rw [← List.reverse_reverse (linesOf source), hsplit]
      simp
    have hoffset := (numberLines_eq_append hlines).2
    refine ⟨by simp [hlines], by simpa using hl, ?_⟩
    cases hnext : below.reverse with
    | nil =>
      have hstop : l.stop = source.length := by
        conv_rhs => rw [← flatMap_linesOf source, hlines, hnext]
        simp [SourceLine.stop, hoffset]
      omega
    | cons next rest =>
      -- the line below begins where this one stops
      rw [hnext, List.append_cons] at hlines
      have hstop := (numberLines_eq_append hlines).2
      have hnext : next ∈ below := by
        rw [← List.mem_reverse, hnext]
        exact List.mem_cons_self
      have := hbelow next hnext
      simp only [List.flatMap_append, List.flatMap_singleton, List.length_append] at hstop
      simp only [Bool.not_eq_true', decide_eq_false_iff_not, not_le] at this
      simp only [SourceLine.stop]
      omega
  · cases h

theorem exists_lineAt? (hsource : source ≠ []) (hplace : place ≤ source.length) :
    ∃ l, lineAt? source place = some l := by
  have hfirst : ∃ l ∈ linesOf source, l.offset = 0 := by
    cases hlines : linesOf source with
    | nil =>
      have hflat := flatMap_linesOf source
      rw [hlines, List.flatMap_nil] at hflat
      exact absurd hflat.symm hsource
    | cons first rest =>
      have hsplit : linesOf source = [] ++ first :: rest := hlines
      exact ⟨first, List.mem_cons_self, (numberLines_eq_append hsplit).2⟩
  obtain ⟨first, hmem, hoffset⟩ := hfirst
  rw [lineAt?, if_pos hplace, ← Option.isSome_iff_exists, List.findRev?_eq_find?_reverse,
    List.find?_isSome]
  exact ⟨first, List.mem_reverse.2 hmem, by simp [hoffset]⟩

theorem lineAt?_eq_none (h : source = [] ∨ source.length < place) : lineAt? source place = none := by
  rcases h with rfl | hplace
  · unfold lineAt?
    split <;> rfl
  · exact if_neg (by omega)

/-! The row that names a place -/

def heading (gutter : Nat) (file : String) (line column : Nat) : String :=
  spaces (gutter + 2) ++ "╭─[" ++ file ++ ":" ++ toString line ++ ":" ++ toString column ++ "]"

/-- The last colon of a row. -/
theorem eq_of_last_colon {as bs cs ds : List Char} (hbs : ':' ∉ bs) (hds : ':' ∉ ds)
    (h : as ++ ':' :: bs = cs ++ ':' :: ds) : as = cs ∧ bs = ds := by
  have after_colon {es fs : List Char} (hfs : ':' ∉ fs) :
      (es ++ ':' :: fs).reverse.dropWhile (· ≠ ':') = ':' :: es.reverse := by
    rw [List.reverse_append, List.reverse_cons, List.append_assoc, List.dropWhile_append_of_pos]
    · rfl
    · intro c hc
      rw [List.mem_reverse] at hc
      exact decide_eq_true fun hcolon => hfs (hcolon ▸ hc)
  have hbefore : as = cs := by
    have := congrArg (List.dropWhile (· ≠ ':') ∘ List.reverse) h
    rw [Function.comp_apply, Function.comp_apply, after_colon hbs, after_colon hds] at this
    exact List.reverse_injective (List.cons.inj this).2
  subst hbefore
  exact ⟨rfl, (List.cons.inj (List.append_cancel_left h)).2⟩

theorem colon_not_mem_toString (n : Nat) : ':' ∉ (toString n).toList := by
  intro h
  rw [Nat.toString_eq_repr, Nat.toList_repr] at h
  exact absurd (Nat.isDigit_of_mem_toDigits (by decide) (by decide) h) (by decide)

theorem heading_toList (gutter : Nat) (file : String) (line column : Nat) :
    (heading gutter file line column).toList =
      ((spaces (gutter + 2) ++ "╭─[" ++ file).toList ++ ':' :: (toString line).toList) ++
        ':' :: ((toString column).toList ++ [']']) := by
  have hcolon : ":".toList = [':'] := rfl
  have hclose : "]".toList = [']'] := rfl
  simp only [heading, String.toList_append, hcolon, hclose, List.append_assoc, List.cons_append,
    List.nil_append]

theorem heading_inj {gutter gutter' line line' column column' : Nat} {file : String}
    (h : heading gutter file line column = heading gutter' file line' column') :
    line = line' ∧ column = column' := by
  have hno (n : Nat) : ':' ∉ (toString n).toList ++ [']'] := by
    simpa using colon_not_mem_toString n
  have hchars := congrArg String.toList h
  rw [heading_toList, heading_toList] at hchars
  obtain ⟨hbefore, hcolumn⟩ := eq_of_last_colon (hno column) (hno column') hchars
  obtain ⟨-, hline⟩ := eq_of_last_colon (colon_not_mem_toString line)
    (colon_not_mem_toString line') hbefore
  have digits_inj {m n : Nat} (h : (toString m).toList = (toString n).toList) : m = n :=
    Nat.repr_inj.1 (String.toList_injective h)
  exact ⟨digits_inj hline, digits_inj (List.append_cancel_right hcolumn)⟩

/-! What a diagnostic says of a place -/

/-- The row above the lines gives the line and the column of a place, the column in characters. -/
def Names (d : Diagnostic) (file : String) (source : List Char) (place : Nat) : Prop :=
  ∃ gutter l, IsOn source place l ∧
    (rows d file source)[1]? = some (heading gutter file l.number (place - l.offset + 1))

/-- The characters that are marked are those from one place to another. -/
def Marks (d : Diagnostic) (source : List Char) (start stop : Nat) : Prop :=
  ∃ l, label? d source = some l ∧ l.start = start ∧ l.stop = stop

variable {d : Diagnostic} {file : String} {place' : Nat}

theorem Names.eq (h : Names d file source place) (h' : Names d file source place') :
    place = place' := by
  obtain ⟨gutter, l, hl, hrow⟩ := h
  obtain ⟨gutter', l', hl', hrow'⟩ := h'
  obtain ⟨hline, hcolumn⟩ := heading_inj (Option.some.inj (hrow.symm.trans hrow'))
  have hsame := eq_of_number_eq hl.mem hl'.mem hline
  subst hsame
  have := hl.offset_le
  have := hl'.offset_le
  omega

def Reaches (source : List Char) (start stop : Nat) : Prop :=
  source ≠ [] ∧ start ≤ source.length ∧ stop ≤ source.length + 1

theorem exists_label {start stop : Nat} (hrange : range d (Text.byteLength source) = (start, stop))
    (h : Reaches source start stop) :
    ∃ l, label? d source = some l ∧ l.start = start ∧ l.stop = stop ∧ IsOn source start l.first := by
  obtain ⟨first, hfirst⟩ := exists_lineAt? h.1 h.2.1
  obtain ⟨last, hlast⟩ := exists_lineAt? h.1 (Nat.sub_le_of_le_add h.2.2)
  rw [label?, hrange]
  by_cases hempty : start < stop
  · refine ⟨⟨d.message, start, stop, first, last⟩, ?_, rfl, rfl, isOn_of_lineAt? hfirst⟩
    simp [hfirst, hlast, hempty]
  · refine ⟨⟨d.message, start, stop, first, first⟩, ?_, rfl, rfl, isOn_of_lineAt? hfirst⟩
    simp [hfirst, hempty]

theorem label?_eq_none {start stop : Nat} (hrange : range d (Text.byteLength source) = (start, stop))
    (h : ¬ Reaches source start stop) : label? d source = none := by
  rw [label?, hrange]
  by_cases hstart : source = [] ∨ source.length < start
  · simp [lineAt?_eq_none hstart]
  · have hstop : source.length < stop - 1 := by
      by_contra hle
      push Not at hstart hle
      exact h ⟨hstart.1, hstart.2, by omega⟩
    have hempty : start < stop := by
      push Not at hstart
      omega
    simp [hempty, lineAt?_eq_none (.inr hstop)]

theorem rows_of_label {l : Label} (h : label? d source = some l) :
    (rows d file source)[1]? =
      some (heading l.gutter file l.first.number (l.start - l.first.offset + 1)) := by
  rw [rows, h]
  rfl

theorem rows_of_none (h : label? d source = none) :
    rows d file source = [kind d.severity ++ ": " ++ d.message] := by
  rw [rows, h]

/-! Offsets that count bytes -/

variable {a b c : List Char}

theorem range_eq (hstart : d.span.start.toNat = Text.byteLength a)
    (hstop : d.span.stop.toNat = Text.byteLength (a ++ b)) :
    range d (Text.byteLength (a ++ b ++ c)) = (Text.byteLength a, Text.byteLength (a ++ b)) := by
  simp only [range, hstart, hstop, Text.byteLength_append]
  congr 1 <;> omega

theorem laid_out (file : String) (hstart : d.span.start.toNat = Text.byteLength a)
    (hstop : d.span.stop.toNat = Text.byteLength (a ++ b)) :
    (Reaches (a ++ b ++ c) (Text.byteLength a) (Text.byteLength (a ++ b)) →
        Names d file (a ++ b ++ c) (Text.byteLength a) ∧
          Marks d (a ++ b ++ c) (Text.byteLength a) (Text.byteLength (a ++ b))) ∧
      (¬ Reaches (a ++ b ++ c) (Text.byteLength a) (Text.byteLength (a ++ b)) →
        label? d (a ++ b ++ c) = none) := by
  have hrange := range_eq (c := c) hstart hstop
  refine ⟨fun h => ?_, label?_eq_none hrange⟩
  obtain ⟨l, hl, hlstart, hlstop, hon⟩ := exists_label hrange h
  exact ⟨⟨l.gutter, l.first, hon, hlstart ▸ rows_of_label hl⟩, l, hl, hlstart, hlstop⟩

theorem not_names (h : label? d source = none) : ¬ Names d file source place := by
  rintro ⟨gutter, l, -, hrow⟩
  rw [rows_of_none h] at hrow
  cases hrow

theorem not_marks {start stop : Nat} (h : label? d source = none) : ¬ Marks d source start stop := by
  rintro ⟨l, hl, -⟩
  rw [h] at hl
  cases hl

theorem Marks.eq {start stop start' stop' : Nat} (h : Marks d source start stop)
    (h' : Marks d source start' stop') : start = start' ∧ stop = stop' := by
  obtain ⟨l, hl, rfl, rfl⟩ := h
  obtain ⟨l', hl', rfl, rfl⟩ := h'
  cases Option.some.inj (hl.symm.trans hl')
  exact ⟨rfl, rfl⟩

/-- Offsets in bytes are read as numbers of characters. The line and the column are right where every
character before the range is one byte, and the range where those inside it are too. -/
theorem names_and_marks (file : String) (hstart : d.span.start.toNat = Text.byteLength a)
    (hstop : d.span.stop.toNat = Text.byteLength (a ++ b)) :
    (Reaches (a ++ b ++ c) (Text.byteLength a) (Text.byteLength (a ++ b)) →
        Names d file (a ++ b ++ c) (Text.byteLength a) ∧
          Marks d (a ++ b ++ c) (Text.byteLength a) (Text.byteLength (a ++ b))) ∧
      (¬ Reaches (a ++ b ++ c) (Text.byteLength a) (Text.byteLength (a ++ b)) →
        rows d file (a ++ b ++ c) = [kind d.severity ++ ": " ++ d.message]) ∧
      (Names d file (a ++ b ++ c) a.length ↔
        Reaches (a ++ b ++ c) (Text.byteLength a) (Text.byteLength (a ++ b)) ∧
          ∀ x ∈ a, x.utf8Size = 1) ∧
      (Marks d (a ++ b ++ c) a.length (a ++ b).length ↔
        a ++ b ++ c ≠ [] ∧ ∀ x ∈ a ++ b, x.utf8Size = 1) := by
  obtain ⟨hreached, hmissed⟩ := laid_out (c := c) file hstart hstop
  refine ⟨hreached, fun h => rows_of_none (hmissed h), ⟨fun h => ?_, fun ⟨hreach, hone⟩ => ?_⟩,
    ⟨fun h => ?_, fun ⟨hsource, hone⟩ => ?_⟩⟩
  · by_cases hreach : Reaches (a ++ b ++ c) (Text.byteLength a) (Text.byteLength (a ++ b))
    · exact ⟨hreach, (Text.byteLength_eq_length_iff a).1 ((hreached hreach).1.eq h)⟩
    · exact absurd h (not_names (hmissed hreach))
  · rw [← (Text.byteLength_eq_length_iff a).2 hone]
    exact (hreached hreach).1
  · by_cases hreach : Reaches (a ++ b ++ c) (Text.byteLength a) (Text.byteLength (a ++ b))
    · exact ⟨hreach.1, (Text.byteLength_eq_length_iff _).1 ((hreached hreach).2.eq h).2⟩
    · exact absurd h (not_marks (hmissed hreach))
  · have hbefore := (Text.byteLength_eq_length_iff a).2 fun x hx => hone x (List.mem_append_left _ hx)
    have hrange := (Text.byteLength_eq_length_iff (a ++ b)).2 hone
    have hreach : Reaches (a ++ b ++ c) (Text.byteLength a) (Text.byteLength (a ++ b)) := by
      refine ⟨hsource, ?_, ?_⟩ <;> simp only [hbefore, hrange, List.length_append] <;> omega
    rw [← hbefore, ← hrange]
    exact (hreached hreach).2

/-- An error at the third character, after one that is two bytes. -/
def accented : Diagnostic := .error "unexpected token" ⟨0, 3, 4⟩

/-- The fourth is named and marked in its place. -/
theorem names_and_marks_accented :
    accented.span.start.toNat = Text.byteLength ['é', ';'] ∧
      accented.span.stop.toNat = Text.byteLength (['é', ';'] ++ ['x']) ∧
      ¬ Names accented "a.jsx" ['é', ';', 'x', 'y'] 2 ∧ ¬ Marks accented ['é', ';', 'x', 'y'] 2 3 ∧
      Names accented "a.jsx" ['é', ';', 'x', 'y'] 3 ∧ Marks accented ['é', ';', 'x', 'y'] 3 4 := by
  have hstart : accented.span.start.toNat = Text.byteLength ['é', ';'] := by decide
  have hstop : accented.span.stop.toNat = Text.byteLength (['é', ';'] ++ ['x']) := by decide
  obtain ⟨hreached, -, hnames, hmarks⟩ := names_and_marks (c := ['y']) "a.jsx" hstart hstop
  have hwide : ('é').utf8Size ≠ 1 := by decide
  refine ⟨hstart, hstop, fun h => ?_, fun h => ?_, hreached ⟨by decide, by decide, by decide⟩⟩
  · exact hwide ((hnames.1 h).2 'é' (by decide))
  · exact hwide ((hmarks.1 h).2 'é' (by decide))

end Sheet
end BranchMarkup
