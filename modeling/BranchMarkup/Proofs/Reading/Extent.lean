import BranchMarkup.Proofs.Reading.Cursor
/-! Offsets count what has been passed over: together with what is left they make up the length of
the text, and a token stands between the offsets before and after it. -/
namespace BranchMarkup
namespace Text

theorem byteLength_pos {cs : List Char} (h : cs ≠ []) : 0 < byteLength cs := by
  cases cs with
  | nil => exact absurd rfl h
  | cons c cs => exact Nat.lt_of_lt_of_le c.utf8Size_pos (Nat.le_add_right ..)

theorem byteLength_le_of_suffix {cs ds : List Char} (h : cs <:+ ds) :
    byteLength cs ≤ byteLength ds := by
  obtain ⟨es, rfl⟩ := h
  rw [byteLength_append]
  exact Nat.le_add_left ..

theorem byteLength_lt_of_suffix {cs ds : List Char} (h : cs <:+ ds) (hlt : cs.length < ds.length) :
    byteLength cs < byteLength ds := by
  obtain ⟨es, rfl⟩ := h
  rw [List.length_append] at hlt
  have hes : es ≠ [] := by
    rintro rfl
    simp at hlt
  have := byteLength_pos hes
  rw [byteLength_append]
  omega

end Text

open Text (byteLength byteLength_append byteLength_cons byteLength_pos)

namespace Scanner

/-- The length of the whole text in bytes. -/
def extent (s : Scanner) : Nat := s.offset + byteLength s.rest

theorem extent_advance {s : Scanner} {taken rest : List Char} (h : taken ++ rest = s.rest) :
    (s.advance taken rest).extent = s.extent := by
  simp only [extent, advance, ← h, byteLength_append, Nat.add_assoc]

theorem extent_skipSpace (s : Scanner) : s.skipSpace.extent = s.extent :=
  extent_advance (cutWhile_append isSpace s.rest)

theorem extent_setAside {s : Scanner} {c : Comment} (h : comment? s.rest = some c) :
    (s.setAside c).extent = s.extent :=
  extent_advance (append_of_comment? h)

theorem extent_skipTrivia (s : Scanner) : s.skipTrivia.extent = s.extent := by
  fun_induction skipTrivia s with
  | case1 s h => exact s.extent_skipSpace
  | case2 s c h ih => rw [ih, extent_setAside h, extent_skipSpace]

theorem offset_skipSpace_le (s : Scanner) : s.offset ≤ s.skipSpace.offset := Nat.le_add_right ..

theorem offset_skipTrivia_le (s : Scanner) : s.offset ≤ s.skipTrivia.offset := by
  fun_induction skipTrivia s with
  | case1 s h => exact s.offset_skipSpace_le
  | case2 s c h ih =>
    have hset : s.skipSpace.offset ≤ (s.skipSpace.setAside c).offset := Nat.le_add_right ..
    exact Nat.le_trans s.offset_skipSpace_le (Nat.le_trans hset ih)

theorem scriptString_extent (quote : Char) (start : Nat) (cs : List Char) (offset : Nat) :
    (scriptString quote start cs offset).offset +
      byteLength (scriptString quote start cs offset).rest = offset + byteLength cs := by
  have hsize : ('\n').utf8Size = 1 ∧ ('\\').utf8Size = 1 := ⟨rfl, rfl⟩
  fun_induction scriptString quote start cs offset with
  | case1 => rfl
  | case2 offset r | case3 offset r =>
    simp only [byteLength_cons]
    omega
  | case4 offset r e next q _ _ _ ih | case5 offset r e next q _ _ _ _ ih
  | case6 offset r e next q _ _ _ ih =>
    have hsum : byteLength e.taken + byteLength e.rest = byteLength r := by
      rw [← byteLength_append, escape_append]
    have hnext : next = offset + 1 + byteLength e.taken := rfl
    change q.offset + byteLength q.rest = next + byteLength e.rest at ih
    simp only [byteLength_cons]
    omega
  | case7 offset c r _ _ _ q ih =>
    change q.offset + byteLength q.rest = offset + c.utf8Size + byteLength r at ih
    simp only [byteLength_cons]
    omega

theorem tagString_extent {quote : Char} (hq : quote.utf8Size = 1) (start : Nat) (cs : List Char)
    (offset : Nat) :
    (tagString quote start cs offset).offset + byteLength (tagString quote start cs offset).rest =
      offset + byteLength cs := by
  have hsum := congrArg byteLength (cutWhile_append (· != quote) cs)
  have hhead : ∀ c ∈ (cutWhile (· != quote) cs).rest.head?, c = quote := by
    intro c hc
    have := List.head?_dropWhile_not (· != quote) cs
    rw [cutWhile, Option.mem_def] at hc
    rw [hc] at this
    simpa using this
  simp only [tagString]
  split
  · next h =>
    rw [h, List.append_nil] at hsum
    simp [hsum]
  · next c r h =>
    obtain rfl := hhead c (by simp [h])
    rw [h, byteLength_append, byteLength_cons, hq] at hsum
    simp only
    omega

/-- The scanner after a token, and where that token stands. -/
structure Steps (s : Scanner) (t : Spanned Token) (u : Scanner) : Prop where
  extent_eq : u.extent = s.extent
  span : ∃ start, t.span = .ofOffsets start u.offset ∧ s.offset ≤ start ∧ start ≤ u.offset ∧
    (t.val = .endOfFile ↔ start = u.offset)

theorem Steps.of_trivia {s : Scanner} {t : Spanned Token} {u : Scanner}
    (h : Steps s.skipTrivia t u) : Steps s t u := by
  obtain ⟨hextent, start, hspan, hle, hle', hend⟩ := h
  exact ⟨hextent.trans s.extent_skipTrivia, start, hspan,
    Nat.le_trans s.offset_skipTrivia_le hle, hle', hend⟩

theorem steps_emit {s : Scanner} {taken rest : List Char} (h : taken ++ rest = s.rest)
    (hne : taken ≠ []) {token : Token} (htoken : token ≠ .endOfFile) :
    Steps s (s.emit (s.advance taken rest) token).1 (s.emit (s.advance taken rest) token).2 := by
  have hpos := byteLength_pos hne
  refine ⟨extent_advance h, s.offset, rfl, Nat.le_refl _, Nat.le_add_right .., ?_⟩
  simp only [emit, advance, htoken, false_iff]
  omega

theorem steps_quoted {s : Scanner} {q : Quoted} {c : Char} {r : List Char} (h : s.rest = c :: r)
    (hc : c.utf8Size = 1) (hq : q.offset + byteLength q.rest = s.offset + 1 + byteLength r)
    (hr : q.rest <:+ r) : Steps s (s.quoted q).1 (s.quoted q).2 := by
  have hle := Text.byteLength_le_of_suffix hr
  refine ⟨?_, s.offset, rfl, Nat.le_refl _, ?_, ?_⟩
  · simp only [quoted, emit, extent, h, byteLength_cons]
    omega
  · simp only [quoted, emit]
    omega
  · simp only [quoted, emit, reduceCtorEq, false_iff]
    omega

theorem steps_nextToken (mode : Mode) (s : Scanner) :
    Steps s (s.nextToken mode).1 (s.nextToken mode).2 := by
  fun_induction nextToken mode s with
  | case1 s h =>
    exact .of_trivia ⟨rfl, _, rfl, Nat.le_refl _, Nat.le_refl _, by simp [emit]⟩
  | case2 s c r h t hc w name =>
    refine .of_trivia (steps_emit ?_ ?_ ?_)
    · rw [h]
      exact cutWhile_append ..
    · have hp : isNamePart c = true := by simp [isNamePart, hc]
      simp [w, word, cutWhile, hp]
    · split
      · simp
      · exact Token.ofWord_ne_endOfFile name
  | case3 s c r h t hc hd n =>
    refine .of_trivia (steps_emit ?_ ?_ (by simp))
    · rw [h]
      exact number_append _
    · have hdigit : c.isDigit = true := by
        rw [Bool.and_eq_true] at hd
        exact hd.1
      simp [n, number, cutWhile, hdigit]
  | case4 s c r h t hc hd hq hs =>
    refine .of_trivia (steps_quoted h ?_ (scriptString_extent ..) (scriptString_suffix ..))
    rcases (by simpa using hq : c = '"' ∨ c = '\'') with rfl | rfl <;> rfl
  | case5 s c r h t hc hd hq hs =>
    have hsize : c.utf8Size = 1 := by
      rcases (by simpa using hq : c = '"' ∨ c = '\'') with rfl | rfl <;> rfl
    exact .of_trivia (steps_quoted h hsize (tagString_extent hsize ..) (tagString_suffix ..))
  | case6 s c r h t hc hd hq sym rest hsym =>
    refine .of_trivia (steps_emit ?_ ?_ (by simp))
    · rw [h]
      exact append_of_symbol? hsym
    · cases sym <;> decide
  | case7 s c r h t hc hd hq hsym u ih =>
    have hu : u.extent = t.extent := extent_advance (by rw [h]; rfl)
    obtain ⟨hextent, start, hspan, hle, hle', hlt⟩ := ih
    refine .of_trivia ⟨hextent.trans hu, start, hspan, ?_, hle', hlt⟩
    exact Nat.le_trans (Nat.le_add_right t.offset _) hle

theorem steps_next (mode : Mode) (s : Scanner) : Steps s (s.next mode).1 (s.next mode).2 := by
  cases mode with
  | script | tag => exact steps_nextToken _ s
  | child =>
    simp only [next]
    rw [nextChild]
    split
    · exact ⟨rfl, _, rfl, Nat.le_refl _, Nat.le_refl _, by simp [emit]⟩
    · next r h => exact steps_emit (by rw [h]; rfl) (by simp) (by simp)
    · next r h => exact steps_emit (by rw [h]; rfl) (by simp) (by simp)
    · next hnil hopen hbrace =>
      refine steps_emit (cutWhile_append ..) ?_ (by simp)
      cases hcs : s.rest with
      | nil => exact absurd hcs hnil
      | cons c r =>
        have h1 : c ≠ '<' := fun h => hopen r (h ▸ hcs)
        have h2 : c ≠ '\x7b' := fun h => hbrace r (h ▸ hcs)
        simp [cutWhile, h1, h2]

end Scanner
end BranchMarkup
