import Mathlib
import BranchMarkup.Proofs.Json.Written
/-! What fits a layout is read back from its text, unless it is nested too deep: then that is what
reading finds at fault. -/
namespace BranchMarkup.Json

/-! Values as they are written for a layout: no field is left out, none is strange to it, and what
holds nothing stands by its bare name. -/

section
variable {κ : Type} (layout : κ → Layout κ)

mutual

inductive Fits : Shape κ → Json → Prop where
  | flag {b} : Fits .flag (.bool b)
  | text {s} : Fits .text (.string s)
  | word {bits n} : bits ≤ 64 → n < Number.twoTo bits → Fits (.word bits) (.number n)
  | list {item js} : FitsAll item js → Fits (.list item) (.array js)
  | record {k title fields ms} : layout k = .record title fields → FitsFields fields ms →
      Fits (.named k) (.object ms)
  | bare {k variants name} : layout k = .choice variants →
      variants.find? (·.1 = name) = some (name, .nothing) → Fits (.named k) (.string name)
  | value {k variants name shape j} : layout k = .choice variants →
      variants.find? (·.1 = name) = some (name, .value shape) → Fits shape j →
      Fits (.named k) (.object [(name, j)])
  | fields {k variants name l j} : layout k = .choice variants →
      variants.find? (·.1 = name) = some (name, .fields l) → Fits (.named l) j →
      Fits (.named k) (.object [(name, j)])

inductive FitsAll : Shape κ → List Json → Prop where
  | nil {item} : FitsAll item []
  | cons {item j js} : Fits item j → FitsAll item js → FitsAll item (j :: js)

inductive FitsField : RecordField κ → Json → Prop where
  | null {f} : f.presence = .nullable → FitsField f .null
  | value {f j} : Fits f.shape j → FitsField f j

inductive FitsFields : List (RecordField κ) → List (String × Json) → Prop where
  | nil : FitsFields [] []
  | cons {f fs j ms} : FitsField f j → FitsFields fs ms →
      FitsFields (f :: fs) ((f.name, j) :: ms)

end

def Distinct : Prop :=
  ∀ k title fields, layout k = .record title fields → (fields.map (·.name)).Nodup

end

/-! What reading comes to, with so many levels to go -/

/-- Reading gives `a`, if its levels are not too many, and else fails for them. -/
def Reads {α : Type} (depth levels : Nat) (a : α) (r : Except Stop α) : Prop :=
  (levels ≤ depth ∧ r = .ok a) ∨ (depth < levels ∧ ∃ left, r = .error (.at .tooDeep left))

section
variable {α β : Type} {d m n : Nat} {a : α} {b : β} {r : Except Stop α}

theorem Reads.ok : Reads d 0 a (.ok a) := .inl ⟨Nat.zero_le d, rfl⟩

theorem Reads.tooDeep {left : Nat} (h : d < n) : Reads d n a (.error (.at .tooDeep left)) :=
  .inr ⟨h, left, rfl⟩

theorem Reads.succ (h : Reads d n a r) : Reads (d + 1) (n + 1) a r := by
  rcases h with ⟨hle, hr⟩ | ⟨hlt, hr⟩
  · exact .inl ⟨Nat.succ_le_succ hle, hr⟩
  · exact .inr ⟨Nat.succ_lt_succ hlt, hr⟩

theorem Reads.bind {f : α → Except Stop β} (h : Reads d m a r) (hf : Reads d n b (f a)) :
    Reads d (max m n) b (r >>= f) := by
  rcases h with ⟨hle, rfl⟩ | ⟨hlt, left, rfl⟩
  · rcases hf with ⟨hle', hr⟩ | ⟨hlt', left, hr⟩
    · exact .inl ⟨Nat.max_le.2 ⟨hle, hle'⟩, hr⟩
    · exact .inr ⟨Nat.lt_of_lt_of_le hlt' (Nat.le_max_right _ _), left, hr⟩
  · exact .inr ⟨Nat.lt_of_lt_of_le hlt (Nat.le_max_left _ _), left, rfl⟩

theorem Reads.bind_ok {f : α → Except Stop β} (h : Reads d n a r) (hf : f a = .ok b) :
    Reads d n b (r >>= f) := by
  rcases h with ⟨hle, rfl⟩ | ⟨hlt, left, rfl⟩
  · exact .inl ⟨hle, hf⟩
  · exact .inr ⟨hlt, left, rfl⟩

theorem Reads.map (h : Reads d n a r) (f : α → β) : Reads d n (f a) (r.map f) := by
  rcases h with ⟨hle, rfl⟩ | ⟨hlt, left, rfl⟩
  · exact .inl ⟨hle, rfl⟩
  · exact .inr ⟨hlt, left, rfl⟩

theorem Reads.closing {close : List Char → Except Stop (List Char)}
    {reach : List Char → List Char} {rest rest' : List Char} {r : Except Stop (α × List Char)}
    (h : Reads d n (a, rest) r) (hclose : close rest = .ok rest') :
    Reads d n (a, rest') (closing close reach r) := by
  rcases h with ⟨hle, rfl⟩ | ⟨hlt, left, rfl⟩
  · refine .inl ⟨hle, ?_⟩
    simp only [Json.closing, hclose, Except.map]
  · exact .inr ⟨hlt, left, rfl⟩

end

/-! Blanks and brackets -/

theorem skipBlanks_append {b : List Char} (hb : ∀ c ∈ b, isBlank c = true) (cs : List Char) :
    skipBlanks (b ++ cs) = skipBlanks cs := List.dropWhile_append_of_pos hb

theorem skipBlanks_cons {c : Char} (hc : isBlank c = false) (cs : List Char) :
    skipBlanks (c :: cs) = c :: cs := by
  simp [skipBlanks, hc]

theorem endsNumber_blanks {b : List Char} (hb : ∀ c ∈ b, isBlank c = true) {cs : List Char}
    (hcs : EndsNumber cs) : EndsNumber (b ++ cs) := by
  cases b with
  | nil => exact hcs
  | cons c b =>
    have hc := hb c List.mem_cons_self
    rintro d ⟨⟩
    simp only [isBlank, Bool.or_eq_true, decide_eq_true_eq] at hc
    rcases hc with ((rfl | rfl) | rfl) | rfl <;> decide

theorem endsNumber_mark {c : Char} (hc : c = ',' ∨ c = ']' ∨ c = '\x7d') (cs : List Char) :
    EndsNumber (c :: cs) := by
  rintro d ⟨⟩
  rcases hc with rfl | rfl | rfl <;> decide

theorem exists_head (w : Spacing) (level : Nat) (j : Json) :
    ∃ c cs, j.written w level = c :: cs ∧ isBlank c = false ∧ c ≠ ']' ∧ (c = 'n' → j = .null) := by
  cases j with
  | null => exact ⟨_, _, rfl, by decide, by decide, fun _ => rfl⟩
  | bool b =>
    cases b with
    | true => exact ⟨'t', ['r', 'u', 'e'], by simp [written], by decide, by decide, by simp⟩
    | false =>
      exact ⟨'f', ['a', 'l', 's', 'e'], by simp [written], by decide, by decide, by simp⟩
  | number n =>
    cases hds : Nat.toDigits 10 n with
    | nil =>
      have := @Nat.length_toDigits_pos 10 n
      simp [hds] at this
    | cons d ds =>
      have hd : d.isDigit = true :=
        Nat.isDigit_of_mem_toDigits (by decide) (by decide) (hds ▸ List.mem_cons_self)
      have hne : ∀ c, c.isDigit = false → d ≠ c := by
        intro c hc heq
        rw [heq, hc] at hd
        cases hd
      refine ⟨d, ds, hds, ?_, hne _ (by decide), fun heq => absurd heq (hne _ (by decide))⟩
      simp [isBlank, hne ' ' (by decide), hne '\n' (by decide), hne '\t' (by decide),
        hne '\r' (by decide)]
  | string s => exact ⟨'"', _, rfl, by decide, by decide, by simp⟩
  | array js => cases js <;> exact ⟨'[', _, rfl, by decide, by decide, by simp⟩
  | object ms =>
    cases ms with
    | nil => exact ⟨'\x7b', _, rfl, by decide, by decide, by simp⟩
    | cons m ms => exact ⟨'\x7b', _, rfl, by decide, by decide, by simp⟩

theorem skipBlanks_written (w : Spacing) (level : Nat) (j : Json) (rest : List Char) :
    skipBlanks (j.written w level ++ rest) = j.written w level ++ rest := by
  obtain ⟨c, cs, heq, hblank, -, -⟩ := exists_head w level j
  rw [heq, List.cons_append, skipBlanks_cons hblank]

theorem nextItem_first (w : Spacing) {b : List Char} (hb : ∀ c ∈ b, isBlank c = true) (level : Nat)
    (j : Json) (rest : List Char) :
    nextItem true (b ++ (j.written w level ++ rest)) = .ok (some (j.written w level ++ rest)) := by
  obtain ⟨c, cs, heq, hblank, hclose, -⟩ := exists_head w level j
  rw [nextItem, skipBlanks_append hb, heq, List.cons_append, skipBlanks_cons hblank]
  split <;> simp_all

theorem nextItem_comma (w : Spacing) {b : List Char} (hb : ∀ c ∈ b, isBlank c = true) (level : Nat)
    (j : Json) (rest : List Char) :
    nextItem false (',' :: (b ++ (j.written w level ++ rest))) =
      .ok (some (j.written w level ++ rest)) := by
  obtain ⟨c, cs, heq, hblank, hclose, -⟩ := exists_head w level j
  have hskip : skipBlanks (b ++ (j.written w level ++ rest)) = c :: (cs ++ rest) := by
    rw [skipBlanks_append hb, heq, List.cons_append, skipBlanks_cons hblank]
  rw [nextItem, skipBlanks_cons (by decide)]
  split
  · next h => cases h
  · next h => simp at h
  · next h =>
    cases h
    rw [if_neg Bool.false_ne_true, if_pos rfl, hskip, heq, List.cons_append]
    split <;> simp_all

theorem nextItem_close (first : Bool) {b : List Char} (hb : ∀ c ∈ b, isBlank c = true)
    (rest : List Char) : nextItem first (b ++ ']' :: rest) = .ok none := by
  rw [nextItem, skipBlanks_append hb, skipBlanks_cons (by decide)]
  rfl

theorem closeList_blanks {b : List Char} (hb : ∀ c ∈ b, isBlank c = true) (rest : List Char) :
    closeList (b ++ ']' :: rest) = .ok rest := by
  rw [closeList, skipBlanks_append hb, skipBlanks_cons (by decide)]
  rfl

theorem nextKey_first {b : List Char} (hb : ∀ c ∈ b, isBlank c = true) (cs : List Char) :
    nextKey true (b ++ '"' :: cs) = .ok (some cs) := by
  rw [nextKey, skipBlanks_append hb, skipBlanks_cons (by decide)]
  rfl

theorem nextKey_comma {b : List Char} (hb : ∀ c ∈ b, isBlank c = true) (cs : List Char) :
    nextKey false (',' :: (b ++ '"' :: cs)) = .ok (some cs) := by
  rw [nextKey, skipBlanks_cons (by decide)]
  split
  · next h => cases h
  · next h => simp at h
  · next h =>
    cases h
    rw [if_neg Bool.false_ne_true, if_pos rfl, skipBlanks_append hb, skipBlanks_cons (by decide)]
    rfl

theorem nextKey_close (first : Bool) {b : List Char} (hb : ∀ c ∈ b, isBlank c = true)
    (rest : List Char) : nextKey first (b ++ '\x7d' :: rest) = .ok none := by
  rw [nextKey, skipBlanks_append hb, skipBlanks_cons (by decide)]
  rfl

theorem closeObject_blanks {b : List Char} (hb : ∀ c ∈ b, isBlank c = true) (rest : List Char) :
    closeObject (b ++ '\x7d' :: rest) = .ok rest := by
  rw [closeObject, skipBlanks_append hb, skipBlanks_cons (by decide)]
  rfl

theorem expectKey_blanks {b : List Char} (hb : ∀ c ∈ b, isBlank c = true) (cs : List Char) :
    expectKey (b ++ '"' :: cs) = .ok cs := by
  rw [expectKey, skipBlanks_append hb, skipBlanks_cons (by decide)]
  rfl

theorem endsNumber_writtenItems (w : Spacing) (level : Nat) (js : List Json) {b : List Char}
    (hb : ∀ c ∈ b, isBlank c = true) (rest : List Char) :
    EndsNumber (writtenItems w level js ++ (b ++ ']' :: rest)) := by
  cases js with
  | nil => exact endsNumber_blanks hb (endsNumber_mark (.inr (.inl rfl)) rest)
  | cons j js => exact endsNumber_mark (.inl rfl) _

theorem endsNumber_writtenMembers (w : Spacing) (level : Nat) (ms : List (String × Json))
    {b : List Char} (hb : ∀ c ∈ b, isBlank c = true) (rest : List Char) :
    EndsNumber (writtenMembers w level ms ++ (b ++ '\x7d' :: rest)) := by
  cases ms with
  | nil => exact endsNumber_blanks hb (endsNumber_mark (.inr (.inr rfl)) rest)
  | cons m ms => exact endsNumber_mark (.inl rfl) _

theorem length_writtenItems (w : Spacing) (level : Nat) (js : List Json) :
    js.length ≤ (writtenItems w level js).length := by
  induction js with
  | nil => exact Nat.zero_le _
  | cons j js ih =>
    simp only [writtenItems, List.length_cons, List.length_append]
    omega

theorem length_writtenMembers (w : Spacing) (level : Nat) (ms : List (String × Json)) :
    ms.length ≤ (writtenMembers w level ms).length := by
  induction ms with
  | nil => exact Nat.zero_le _
  | cons m ms ih =>
    simp only [writtenMembers, List.length_cons, List.length_append]
    omega

section
variable {κ : Type} {layout : κ → Layout κ} {d : Nat} {shape : Shape κ}

theorem read_blanks {b : List Char} (hb : ∀ c ∈ b, isBlank c = true) (cs : List Char) :
    read layout d shape (b ++ cs) = read layout d shape cs := by
  rw [read.eq_def, skipBlanks_append hb, ← read.eq_def]

theorem readField_blanks {f : RecordField κ} {b : List Char} (hb : ∀ c ∈ b, isBlank c = true)
    (cs : List Char) : readField (read layout d) f (b ++ cs) = readField (read layout d) f cs := by
  unfold readField
  rw [skipBlanks_append hb, read_blanks hb]

/-- Null fits nothing; it stands where a value may be left out. -/
theorem Fits.ne_null {j : Json} (h : Fits layout shape j) : j ≠ .null := by
  rintro rfl
  cases h

theorem readField_eq {w : Spacing} {level : Nat} {j : Json} (hj : j ≠ .null) (f : RecordField κ)
    (rest : List Char) :
    readField (read layout d) f (j.written w level ++ rest) =
      read layout d f.shape (j.written w level ++ rest) := by
  obtain ⟨c, cs, heq, hblank, -, hnull⟩ := exists_head w level j
  unfold readField
  rw [skipBlanks_written, heq, List.cons_append]
  split
  · split
    · next hn =>
      cases hn
      exact absurd (hnull rfl) hj
    · rfl
  · rfl

/-! One item, member or variant more -/

theorem reads_readItems {item : Reader Json} {fuel m n : Nat} {first : Bool}
    {cs text more rest : List Char} {j : Json} {js : List Json}
    (hnext : nextItem first cs = .ok (some text)) (hitem : Reads d m (j, more) (item text))
    (hmore : Reads d n (js, rest) (readItems item fuel false more)) :
    Reads d (max m n) (j :: js, rest) (readItems item (fuel + 1) first cs) := by
  rw [readItems, hnext]
  exact hitem.bind (hmore.map fun r => (j :: r.1, r.2))

theorem reads_readMembers {fields : List (RecordField κ)} {fuel m n : Nat} {first : Bool}
    {seen ms : List (String × Json)} {f : RecordField κ} {cs text more rest : List Char} {j : Json}
    (hnext : nextKey first cs = .ok (some (f.name.toList.flatMap escapeChar ++ '"' :: ':' :: text)))
    (hfind : fields.find? (·.name = f.name) = some f) (hseen : seen.lookup f.name = none)
    (hfield : Reads d m (j, more) (readField (read layout d) f text))
    (hmore : Reads d n (ms, rest)
      (readMembers (read layout d) fields fuel (seen ++ [(f.name, j)]) false more)) :
    Reads d (max m n) (ms, rest)
      (readMembers (read layout d) fields (fuel + 1) seen first cs) := by
  rw [readMembers, hnext]
  simp only [bind, Except.bind, readText_quoted, String.ofList_toList, hfind, hseen]
  exact hfield.bind hmore

theorem readVariant_quoted {variants : List (String × Content κ)} {name : String}
    {content : Content κ} (h : variants.find? (·.1 = name) = some (name, content))
    (rest : List Char) :
    readVariant variants (name.toList.flatMap escapeChar ++ '"' :: rest) =
      .ok ((name, content), rest) := by
  unfold readVariant
  simp only [bind, Except.bind, readText_quoted, String.ofList_toList, h]
  rfl

theorem reads_readTagged {value : Shape κ → Reader Json} {variants : List (String × Content κ)}
    {name : String} {content : Content κ} {n : Nat} {b b' text rest : List Char} {j : Json}
    (hb : ∀ c ∈ b, isBlank c = true) (hb' : ∀ c ∈ b', isBlank c = true)
    (hname : variants.find? (·.1 = name) = some (name, content))
    (hvalue : Reads d n (j, b' ++ '\x7d' :: rest) (match content with
      | .nothing => (value .null text).map fun (_, rest) => (Json.string name, rest)
      | .value shape => (value shape text).map fun (j, rest) => (.object [(name, j)], rest)
      | .fields k => (value (.named k) text).map fun (j, rest) => (.object [(name, j)], rest))) :
    Reads d n (j, rest) (readTagged value variants
      (b ++ '"' :: (name.toList.flatMap escapeChar ++ '"' :: ':' :: text))) := by
  rw [readTagged, expectKey_blanks hb]
  simp only [bind, Except.bind, readVariant_quoted hname]
  have hend : skipBlanks (b' ++ '\x7d' :: rest) = '\x7d' :: rest := by
    rw [skipBlanks_append hb', skipBlanks_cons (by decide)]
  cases content <;> exact hvalue.bind_ok (by rw [hend]; rfl)

theorem lookup_append_none {f : RecordField κ} {fs : List (RecordField κ)}
    (hf : f.name ∉ fs.map (·.name)) {seen : List (String × Json)}
    (hseen : ∀ g ∈ fs, seen.lookup g.name = none) (j : Json) :
    ∀ g ∈ fs, (seen ++ [(f.name, j)]).lookup g.name = none := by
  intro g hg
  have hne : g.name ≠ f.name := fun heq => hf (heq ▸ List.mem_map_of_mem hg)
  rw [List.lookup_append, hseen g hg]
  simp only [List.lookup, beq_eq_false_iff_ne.2 hne, Option.or_none]

theorem find?_of_nodup {fields : List (RecordField κ)} (h : (fields.map (·.name)).Nodup) :
    ∀ f ∈ fields, fields.find? (·.name = f.name) = some f := by
  induction fields with
  | nil => nofun
  | cons g fs ih =>
    rw [List.map_cons, List.nodup_cons] at h
    intro f hf
    rcases List.mem_cons.1 hf with rfl | hf
    · simp
    · have hne : g.name ≠ f.name := fun heq => h.1 (heq ▸ List.mem_map_of_mem hf)
      rw [List.find?_cons_of_neg (by simpa using hne), ih h.2 f hf]

theorem complete_append {fields : List (RecordField κ)} {ms : List (String × Json)}
    (h : FitsFields layout fields ms) (hnodup : (fields.map (·.name)).Nodup)
    {seen : List (String × Json)} (hseen : ∀ f ∈ fields, seen.lookup f.name = none)
    (rest : List Char) : complete (seen ++ ms) rest fields = .ok ms := by
  induction fields generalizing seen ms with
  | nil =>
    cases h
    rfl
  | cons f fs ih =>
    cases h with
    | @cons _ _ j ms hf hfs =>
      rw [List.map_cons, List.nodup_cons] at hnodup
      rw [List.forall_mem_cons] at hseen
      have hlookup : (seen ++ (f.name, j) :: ms).lookup f.name = some j := by
        rw [List.lookup_append, hseen.1]
        simp
      have hrest := lookup_append_none hnodup.1 hseen.2 j
      have ih := ih hfs hnodup.2 hrest
      rw [List.append_assoc, List.singleton_append] at ih
      simp only [complete, hlookup, Option.some_or, ih, Except.map]

/-! What is written is read, by recursion on why it fits -/

mutual

theorem Fits.reads (hl : Distinct layout) (w : Spacing) {shape j} : Fits layout shape j →
    ∀ (level d : Nat) {rest}, EndsNumber rest →
      Reads d j.depth (j, rest) (read layout d shape (j.written w level ++ rest))
  | .flag (b := b), level, d, rest, _ => by
    rw [read.eq_def]
    cases b <;> exact .ok
  | .text, level, d, rest, _ => by
    rw [read.eq_def, skipBlanks_written]
    simp only [written, quote, List.cons_append, List.append_assoc, List.nil_append,
      readText_quoted, Except.map, String.ofList_toList]
    exact .ok
  | .word (n := n) hbits hn, level, d, rest, hrest => by
    have hword := readWord_toDigits hbits hn hrest
    obtain ⟨c, cs, heq, -⟩ := exists_head w level (.number n)
    rw [read.eq_def, skipBlanks_written, heq]
    rw [show Nat.toDigits 10 n = c :: cs from heq] at hword
    simp only [List.cons_append] at hword ⊢
    rw [hword]
    exact .ok
  | .list .nil, level, d, rest, _ => by
    rw [read.eq_def, skipBlanks_written]
    cases d with
    | zero => exact .tooDeep Nat.zero_lt_one
    | succ d => exact .succ .ok
  | .list (@FitsAll.cons _ _ _ j js h hs), level, d, rest, _ => by
    rw [read.eq_def, skipBlanks_written]
    simp only [written, List.cons_append, List.append_assoc, List.nil_append]
    cases d with
    | zero => exact .tooDeep (Nat.zero_lt_succ _)
    | succ d =>
      have hmargin := w.margin_blank level
      have hitem := h.reads hl w (level + 1) d
        (endsNumber_writtenItems w (level + 1) js hmargin rest)
      have hnext := nextItem_first w (w.margin_blank (level + 1)) (level + 1) j
        (writtenItems w (level + 1) js ++ (w.margin level ++ ']' :: rest))
      apply Reads.succ
      refine (Reads.closing ?_ (closeList_blanks hmargin rest)).map fun r => (array r.1, r.2)
      apply reads_readItems hnext hitem
      apply hs.reads hl w (level + 1) d rest hmargin
      have := length_writtenItems w (level + 1) js
      simp only [List.length_append, List.length_cons]
      omega
  | .record hk hfields, level, d, rest, _ => by
    have hdistinct := hl _ _ _ hk
    rw [read.eq_def, skipBlanks_written]
    cases hfields with
    | nil =>
      simp only [written, List.cons_append, List.nil_append, hk]
      cases d with
      | zero => exact .tooDeep Nat.zero_lt_one
      | succ d => exact .succ .ok
    | @cons f fs j ms h hs =>
      have hcomplete := complete_append (.cons h hs) hdistinct (fun _ _ => List.lookup_nil)
        (w.margin level ++ '\x7d' :: rest)
      have hfind := find?_of_nodup hdistinct
      rw [List.map_cons, List.nodup_cons] at hdistinct
      rw [List.forall_mem_cons] at hfind
      simp only [written, quote, List.cons_append, List.append_assoc, List.nil_append, hk]
      cases d with
      | zero => exact .tooDeep (Nat.zero_lt_succ _)
      | succ d =>
        have hmargin := w.margin_blank level
        have hfield := h.reads hl w (level + 1) d
          (endsNumber_writtenMembers w (level + 1) ms hmargin rest)
        have hlater := lookup_append_none hdistinct.1 (fun _ _ => List.lookup_nil) j
        have hnext := nextKey_first (w.margin_blank (level + 1))
          (f.name.toList.flatMap escapeChar ++ '"' :: ':' :: (w.gap ++ (j.written w (level + 1) ++
            (writtenMembers w (level + 1) ms ++ (w.margin level ++ '\x7d' :: rest)))))
        apply Reads.succ
        refine (Reads.closing ?_ (closeObject_blanks hmargin rest)).map fun r => (object r.1, r.2)
        refine Reads.bind_ok (reads_readMembers hnext hfind.1 List.lookup_nil hfield
          (hs.reads hl w (level + 1) d rest hfind.2 hdistinct.2 hlater hmargin ?_)) ?_
        · have := length_writtenMembers w (level + 1) ms
          simp only [List.length_append, List.length_cons]
          omega
        · rw [List.nil_append] at hcomplete
          simp only [List.nil_append, List.singleton_append, hcomplete]
          rfl
  | .bare hk hname, level, d, rest, _ => by
    rw [read.eq_def, skipBlanks_written]
    simp only [written, quote, List.cons_append, List.append_assoc, List.nil_append, hk, readBare,
      bind, Except.bind, readVariant_quoted hname]
    exact .ok
  | .value hk hname h, level, d, rest, _ | .fields hk hname h, level, d, rest, _ => by
    have hends := endsNumber_writtenMembers w (level + 1) [] (w.margin_blank level) rest
    rw [read.eq_def, skipBlanks_written]
    simp only [written, quote, List.cons_append, List.append_assoc, List.nil_append, hk]
    cases d with
    | zero => exact .tooDeep (Nat.zero_lt_succ _)
    | succ d =>
      have hvalue := h.reads hl w (level + 1) d hends
      rw [← read_blanks w.gap_blank] at hvalue
      apply Reads.succ
      rw [depthMembers, depthMembers, Nat.max_zero]
      exact reads_readTagged (w.margin_blank (level + 1)) (w.margin_blank level) hname
        (hvalue.map fun r => (object [(_, r.1)], r.2))

theorem FitsAll.reads (hl : Distinct layout) (w : Spacing) {item js} : FitsAll layout item js →
    ∀ (level d : Nat) {fuel} (rest : List Char) {b}, (∀ c ∈ b, isBlank c = true) → js.length < fuel →
      Reads d (depthItems js) (js, b ++ ']' :: rest)
        (readItems (read layout d item) fuel false
          (writtenItems w level js ++ (b ++ ']' :: rest)))
  | .nil, level, d, fuel + 1, rest, b, hb, _ => by
    rw [readItems, writtenItems, List.nil_append, nextItem_close false hb]
    exact .ok
  | @FitsAll.cons _ _ _ j js h hs, level, d, fuel + 1, rest, b, hb, hfuel => by
    have hitem := h.reads hl w level d (endsNumber_writtenItems w level js hb rest)
    have hnext := nextItem_comma w (w.margin_blank level) level j
      (writtenItems w level js ++ (b ++ ']' :: rest))
    simp only [writtenItems, List.cons_append, List.append_assoc]
    exact reads_readItems hnext hitem (hs.reads hl w level d rest hb (Nat.lt_of_succ_lt_succ hfuel))

theorem FitsField.reads (hl : Distinct layout) (w : Spacing) {f j} : FitsField layout f j →
    ∀ (level d : Nat) {rest}, EndsNumber rest →
      Reads d j.depth (j, rest) (readField (read layout d) f (w.gap ++ (j.written w level ++ rest)))
  | .null hf, level, d, rest, _ => by
    rw [readField_blanks w.gap_blank, readField, if_pos hf]
    exact .ok
  | .value h, level, d, rest, hrest => by
    rw [readField_blanks w.gap_blank, readField_eq h.ne_null]
    exact h.reads hl w level d hrest

theorem FitsFields.reads (hl : Distinct layout) (w : Spacing) {fields ms} :
    FitsFields layout fields ms →
    ∀ (level d : Nat) {all seen fuel} (rest : List Char) {b},
      (∀ f ∈ fields, all.find? (·.name = f.name) = some f) →
      (fields.map (·.name)).Nodup → (∀ f ∈ fields, seen.lookup f.name = none) →
      (∀ c ∈ b, isBlank c = true) → ms.length < fuel →
      Reads d (depthMembers ms) (seen ++ ms, b ++ '\x7d' :: rest)
        (readMembers (read layout d) all fuel seen false
          (writtenMembers w level ms ++ (b ++ '\x7d' :: rest)))
  | .nil, level, d, all, seen, fuel + 1, rest, b, _, _, _, hb, _ => by
    rw [readMembers, writtenMembers, List.nil_append, nextKey_close false hb, List.append_nil]
    exact .ok
  | @FitsFields.cons _ _ f fs j ms h hs, level, d, all, seen, fuel + 1, rest, b, hall, hnodup,
      hseen, hb, hfuel => by
    rw [List.forall_mem_cons] at hall hseen
    rw [List.map_cons, List.nodup_cons] at hnodup
    have hlater := lookup_append_none hnodup.1 hseen.2 j
    have hfield := h.reads hl w level d (endsNumber_writtenMembers w level ms hb rest)
    have hmore := hs.reads hl w level d rest hall.2 hnodup.2 hlater hb (Nat.lt_of_succ_lt_succ hfuel)
    rw [List.append_assoc, List.singleton_append] at hmore
    simp only [writtenMembers, quote, List.cons_append, List.append_assoc, List.nil_append]
    exact reads_readMembers (nextKey_comma (w.margin_blank level) _) hall.1 hseen.1 hfield hmore

end

end
end BranchMarkup.Json
