import Mathlib.Data.List.TakeDrop
import Mathlib.Data.List.TakeWhile
import BranchMarkup.Project
/-! The configuration of a new project, read back. The name is written between quotes as it is, and
the reader takes lines, blanks around a line and quotes around a value for its own. A name that has
none of these in the wrong place comes out as it was, whatever else is in it. -/
namespace BranchMarkup.Project

/-- A name that is one line and neither begins nor ends with a quote. -/
structure IsPlain (name : String) : Prop where
  one_line : '\n' ∉ name.toList
  head_ne : name.toList.head? ≠ some '"'
  last_ne : name.toList.getLast? ≠ some '"'

/-! Lines -/

theorem splitOn_line {line : List Char} (h : '\n' ∉ line) (rest : List Char) :
    (line ++ '\n' :: rest).splitOn '\n' = line :: rest.splitOn '\n' := by
  refine List.splitOnP_append_cons_of_forall_mem (fun c hc => ?_) '\n' (by decide) rest
  rw [beq_eq_false_iff_ne]
  exact fun hbreak => h (hbreak ▸ hc)

/-- Blanks are trimmed only at the ends. -/
theorem trim_between {c d : Char} (hc : Text.isBlank c = false) (hd : Text.isBlank d = false)
    (cs : List Char) : Text.trim (c :: (cs ++ [d])) = c :: (cs ++ [d]) := by
  apply Text.trim_eq_self
  · rintro _ ⟨⟩
    exact hc
  · rw [← List.cons_append, List.getLast?_concat]
    rintro _ ⟨⟩
    exact hd

theorem dropStart_of_head {c : Char} {cs : List Char} (h : cs.head? ≠ some c) :
    dropStart c cs = cs := by
  cases cs with
  | nil => rfl
  | cons d cs => exact List.dropWhile_cons_of_neg (by simpa using h)

theorem unquote_quoted {cs : List Char} (hhead : cs.head? ≠ some '"')
    (hlast : cs.getLast? ≠ some '"') : unquote ('"' :: (cs ++ ['"'])) = cs := by
  have hdrop (ds : List Char) : dropStart '"' ('"' :: ds) = dropStart '"' ds := rfl
  rw [unquote, dropAround, hdrop]
  cases cs with
  | nil => rfl
  | cons c cs =>
    have hopen : dropStart '"' (c :: cs ++ ['"']) = c :: cs ++ ['"'] := dropStart_of_head hhead
    rw [← List.head?_reverse] at hlast
    rw [hopen, List.reverse_append, List.reverse_singleton, List.singleton_append, hdrop,
      dropStart_of_head hlast, List.reverse_reverse]

def nameLine (name : String) : List Char :=
  'n' :: ('a' :: 'm' :: 'e' :: ' ' :: '=' :: ' ' :: '"' :: name.toList ++ ['"'])

theorem Line.ofChars_eq_entry {c : Char} {cs key value : List Char} (hcomment : c ≠ '#')
    (hheader : c ≠ '[') (hspan : (c :: cs).span (· ≠ '=') = (key, '=' :: value)) :
    Line.ofChars (c :: cs) = .entry (unquote (Text.trim key)) (Text.trim value) := by
  have hbracketed : bracketed? (c :: cs) = none := by
    unfold bracketed?
    split
    · next h => exact absurd (List.cons.inj h).1 hheader
    · rfl
  unfold Line.ofChars
  split
  · next h => cases h
  · next h => exact absurd (List.cons.inj h).1 hcomment
  · rw [hbracketed, hspan]

theorem ofChars_nameLine (name : String) :
    Line.ofChars (Text.trim (nameLine name)) =
      .entry ['n', 'a', 'm', 'e'] ('"' :: (name.toList ++ ['"'])) := by
  have hquote : Text.isBlank '"' = false := by decide
  have hname : Text.isBlank 'n' = false := by decide
  have hvalue : Text.trim (' ' :: '"' :: (name.toList ++ ['"'])) = '"' :: (name.toList ++ ['"']) :=
    trim_between hquote hquote name.toList
  have hkey : unquote (Text.trim ['n', 'a', 'm', 'e', ' ']) = ['n', 'a', 'm', 'e'] := by decide
  have hspan : (nameLine name).span (· ≠ '=') =
      (['n', 'a', 'm', 'e', ' '], '=' :: ' ' :: '"' :: (name.toList ++ ['"'])) := rfl
  have hline : Line.ofChars (nameLine name) = _ := Line.ofChars_eq_entry (by decide) (by decide) hspan
  rw [nameLine, trim_between hname hquote, ← nameLine, hline, hkey, hvalue]

theorem readLine_nameLine {name : String} (h : IsPlain name) (s : Settings) :
    Settings.readLine ("project", s) (nameLine name) = ("project", { s with name }) := by
  have hplain : String.ofList (unquote ('"' :: (name.toList ++ ['"']))) = name := by
    rw [unquote_quoted h.head_ne h.last_ne, String.ofList_toList]
  rw [Settings.readLine, ofChars_nameLine]
  change ("project", { s with name := String.ofList (unquote ('"' :: (name.toList ++ ['"']))) }) = _
  rw [hplain]

/-- What `defaultConfig` writes after the name. -/
def restText : String :=
  "source_dir = \"src\"\nout_dir = \"dist\"\n" ++
    "extensions = [\"jsx\", \"tsx\"]\n\n[transform]\nsource_maps = true\n"

theorem defaultConfig_toList (name : String) : (defaultConfig name).toList =
    "[project]".toList ++ '\n' :: (nameLine name ++ '\n' :: restText.toList) := by
  have hopen : "[project]\nname = \"".toList =
      "[project]".toList ++ '\n' :: ['n', 'a', 'm', 'e', ' ', '=', ' ', '"'] := rfl
  have hclose : "\"\nsource_dir = \"src\"\nout_dir = \"dist\"\n".toList =
      '"' :: '\n' :: "source_dir = \"src\"\nout_dir = \"dist\"\n".toList := rfl
  unfold defaultConfig restText nameLine
  rw [String.toList_append, String.toList_append, String.toList_append, String.toList_append,
    hopen, hclose]
  -- `simp` would compute the literals
  generalize "[project]".toList = header
  generalize "source_dir = \"src\"\nout_dir = \"dist\"\n".toList = directories
  generalize "extensions = [\"jsx\", \"tsx\"]\n\n[transform]\nsource_maps = true\n".toList = others
  simp only [List.append_assoc, List.cons_append, List.nil_append]

theorem read_rest (s : Settings) :
    (restText.toList.splitOn '\n').foldl Settings.readLine ("project", s) =
      ("transform", { Settings.default with name := s.name }) := by
  rfl

theorem read_header :
    Settings.readLine ("", .default) "[project]".toList = ("project", .default) := rfl

theorem IsPlain.not_mem_nameLine {name : String} (h : IsPlain name) : '\n' ∉ nameLine name := by
  have := h.one_line
  simpa [nameLine] using this

theorem read_defaultConfig {name : String} (h : IsPlain name) :
    Settings.read (defaultConfig name) = { Settings.default with name } := by
  have hheader : '\n' ∉ "[project]".toList := by decide
  rw [Settings.read, defaultConfig_toList, splitOn_line hheader,
    splitOn_line h.not_mem_nameLine, List.foldl_cons, List.foldl_cons, read_header,
    readLine_nameLine h, read_rest]

/-! What names can be read -/

theorem dropAround_begins (c : Char) (cs : List Char) : dropAround c cs <+: dropStart c cs := by
  rw [dropAround, ← List.reverse_suffix, List.reverse_reverse]
  exact List.dropWhile_suffix _

theorem head?_dropStart_ne (c : Char) (cs : List Char) : (dropStart c cs).head? ≠ some c := by
  intro h
  have := List.head?_dropWhile_not (· = c) cs
  rw [dropStart] at h
  simp [h] at this

theorem unquote_subset (cs : List Char) : unquote cs ⊆ cs :=
  List.Subset.trans (dropAround_begins _ _).subset (List.dropWhile_subset _)

theorem trim_subset (cs : List Char) : Text.trim cs ⊆ cs := by
  intro c hc
  rw [Text.trim, Text.trimEnd, List.mem_reverse] at hc
  exact List.dropWhile_subset _ (List.mem_reverse.1 (List.dropWhile_subset _ hc))

theorem isPlain_unquote {cs : List Char} (h : '\n' ∉ cs) : IsPlain (String.ofList (unquote cs)) := by
  refine ⟨?_, ?_, ?_⟩ <;> rw [String.toList_ofList, unquote]
  · exact fun hmem => h (unquote_subset _ hmem)
  · intro hhead
    -- what is taken off at the end leaves the first character
    obtain ⟨rest, hrest⟩ := dropAround_begins '"' cs
    apply head?_dropStart_ne '"' cs
    rw [← hrest, List.head?_append, hhead, Option.some_or]
  · rw [dropAround, List.getLast?_reverse]
    exact head?_dropStart_ne _ _

theorem Line.value_subset {cs key value : List Char} (h : Line.ofChars cs = .entry key value) :
    value ⊆ cs := by
  unfold Line.ofChars at h
  split at h
  case h_1 => cases h
  case h_2 => cases h
  case h_3 =>
    cases hinner : bracketed? cs with
    | some inner => simp [hinner] at h
    | none =>
      rw [hinner] at h
      dsimp only at h
      split at h
      · cases h
      · next hspan =>
        cases h
        have htail := List.dropWhile_subset (· ≠ '=') (l := cs)
        rw [List.span_eq_takeWhile_dropWhile, Prod.mk.injEq] at hspan
        rw [hspan.2] at htail
        exact List.Subset.trans (trim_subset _) (List.Subset.trans (List.subset_cons_self _ _) htail)

theorem Settings.isPlain_set {s : Settings} (hs : IsPlain s.name) {header key : String}
    {value : List Char} (hvalue : '\n' ∉ value) : IsPlain (s.set header key value).name := by
  unfold Settings.set
  dsimp only
  split
  · exact isPlain_unquote hvalue
  · exact hs
  · exact hs
  · split <;> exact hs
  · split <;> exact hs
  · exact hs

theorem Settings.isPlain_readLine {header : String × Settings} (h : IsPlain header.2.name)
    {cs : List Char} (hcs : '\n' ∉ cs) : IsPlain (Settings.readLine header cs).2.name := by
  unfold Settings.readLine
  dsimp only
  split
  · exact h
  · exact h
  · next hline =>
    exact isPlain_set h fun hmem => hcs (trim_subset _ (Line.value_subset hline hmem))

theorem Settings.isPlain_foldl {lines : List (List Char)} (hlines : ∀ cs ∈ lines, '\n' ∉ cs)
    {header : String × Settings} (h : IsPlain header.2.name) :
    IsPlain (lines.foldl Settings.readLine header).2.name := by
  induction lines generalizing header with
  | nil => exact h
  | cons cs lines ih =>
    rw [List.forall_mem_cons] at hlines
    exact ih hlines.2 (isPlain_readLine h hlines.1)

/-- Whatever a configuration says, the name that is read from it is plain. -/
theorem isPlain_of_parse {content : String} {root : Path} {p : Project}
    (h : parse content root = .ok p) : IsPlain p.name := by
  have hempty : IsPlain "" := ⟨by decide, by decide, by decide⟩
  have hread : IsPlain (Settings.read content).name :=
    Settings.isPlain_foldl Text.not_mem_of_mem_splitOn hempty
  unfold parse at h
  dsimp only at h
  split at h
  · cases h
  · cases h
    exact hread

/-! A new project -/

/-- What is written for a new project is what it begins with, whatever its name has between its
first and its last character. A project without a name is refused. -/
theorem parse_defaultConfig {name : String} (h : IsPlain name) (root : Path) :
    parse (defaultConfig name) root =
      if name = "" then .error (.error ("missing 'name' in " ++ configName) .zero)
      else .ok (withDefaults name root) := by
  rw [parse, read_defaultConfig h]
  rfl

theorem parse_defaultConfig_marks :
    IsPlain " [a \"b\"] = #\\\r" ∧
      parse (defaultConfig " [a \"b\"] = #\\\r") ⟨"/p"⟩ =
        .ok (withDefaults " [a \"b\"] = #\\\r" ⟨"/p"⟩) :=
  have hplain : IsPlain " [a \"b\"] = #\\\r" := ⟨by decide, by decide, by decide⟩
  ⟨hplain, parse_defaultConfig hplain ⟨"/p"⟩⟩

/-- No name is read that is empty, that a quote begins or ends, or that a line break is in. -/
theorem parse_defaultConfig_unequal :
    parse (defaultConfig "") ⟨"/p"⟩ =
        .error (.error ("missing 'name' in " ++ configName) .zero) ∧
      parse (defaultConfig "\"a\"") ⟨"/p"⟩ ≠ .ok (withDefaults "\"a\"" ⟨"/p"⟩) ∧
      parse (defaultConfig "a\nb") ⟨"/p"⟩ ≠ .ok (withDefaults "a\nb" ⟨"/p"⟩) := by
  refine ⟨?_, ?_, ?_⟩
  · have hempty : IsPlain "" := ⟨by decide, by decide, by decide⟩
    rw [parse, read_defaultConfig hempty]
    rfl
  · exact fun h => (isPlain_of_parse h).head_ne (by decide)
  · exact fun h => (isPlain_of_parse h).one_line (by decide)

end BranchMarkup.Project
