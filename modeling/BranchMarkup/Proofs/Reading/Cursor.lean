import BranchMarkup.Parser.State
/-! What one request for a token does, said once: a token is cut off the text that is left, or the
text has ended. A cursor is a reader without its faults and its depth. -/
namespace BranchMarkup

theorem Token.ofWord_ne_endOfFile (s : String) : Token.ofWord s ≠ .endOfFile := by
  unfold ofWord
  cases Keyword.ofText? s <;> simp

namespace Scanner

/-- A token, and the text that begins with it and that is left after it. -/
inductive Cuts : Mode → List Char → Token → List Char → Prop where
  | tagWord {c r} : isNameStart c = true →
      Cuts .tag (c :: r) (.ident (String.ofList (word .tag (c :: r)).taken)) (word .tag (c :: r)).rest
  | scriptWord {c r} : isNameStart c = true →
      Cuts .script (c :: r) (.ofWord (String.ofList (word .script (c :: r)).taken))
        (word .script (c :: r)).rest
  | number {c r} : c.isDigit = true →
      Cuts .script (c :: r) (.number (String.ofList (number (c :: r)).taken)) (number (c :: r)).rest
  | scriptString {quote r start offset} : quote = '"' ∨ quote = '\'' →
      Cuts .script (quote :: r) (.string (String.ofList (scriptString quote start r offset).value))
        (scriptString quote start r offset).rest
  | tagString {quote r start offset} : quote = '"' ∨ quote = '\'' →
      Cuts .tag (quote :: r) (.string (String.ofList (tagString quote start r offset).value))
        (tagString quote start r offset).rest
  | symbol {mode cs s r} : mode ≠ .child → symbol? mode cs = some (s, r) →
      Cuts mode cs (.symbol s) r
  | childOpen {r} : Cuts .child ('<' :: r) (.symbol .lt) r
  | childBrace {r} : Cuts .child ('\x7b' :: r) (.symbol .lbrace) r
  | text {c r} : c ≠ '<' → c ≠ '\x7b' →
      Cuts .child (c :: r)
        (.text (String.ofList ((c :: r).takeWhile fun d => d != '<' && d != '\x7b')))
        ((c :: r).dropWhile fun d => d != '<' && d != '\x7b')

theorem skipTrivia_suffix (s : Scanner) : s.skipTrivia.rest <:+ s.rest := by
  fun_induction skipTrivia s with
  | case1 s h => exact List.dropWhile_suffix _
  | case2 s c h ih =>
    exact ih.trans (.trans ⟨c.taken, append_of_comment? h⟩ (List.dropWhile_suffix isSpace))

theorem skipTrivia_faults_prefix (s : Scanner) : s.faults <+: s.skipTrivia.faults := by
  fun_induction skipTrivia s with
  | case1 s h => exact List.prefix_rfl
  | case2 s c h ih =>
    refine .trans ?_ ih
    simp only [setAside]
    split
    · exact List.prefix_rfl
    · exact List.prefix_append ..

/-- A request inside a script or a tag passes over what begins no token. -/
theorem nextToken_cases {mode : Mode} (hm : mode ≠ .child) (s : Scanner) :
    ((s.nextToken mode).1.val = .endOfFile ∧ (s.nextToken mode).2.rest = []) ∨
      ∃ cs, cs <:+ s.rest ∧ Cuts mode cs (s.nextToken mode).1.val (s.nextToken mode).2.rest := by
  fun_induction nextToken mode s with
  | case1 s h => exact .inl ⟨rfl, h⟩
  | case2 s c r h t hc w name =>
    refine .inr ⟨c :: r, h ▸ s.skipTrivia_suffix, ?_⟩
    cases mode with
    | script => exact .scriptWord hc
    | tag => exact .tagWord hc
    | child => exact absurd rfl hm
  | case3 s c r h t hc hd n =>
    refine .inr ⟨c :: r, h ▸ s.skipTrivia_suffix, ?_⟩
    obtain ⟨hdigit, rfl⟩ : c.isDigit = true ∧ mode = .script := by simpa using hd
    exact .number hdigit
  | case4 s c r h t hc hd hq hs =>
    subst hs
    exact .inr ⟨c :: r, h ▸ s.skipTrivia_suffix, .scriptString (by simpa using hq)⟩
  | case5 s c r h t hc hd hq hs =>
    refine .inr ⟨c :: r, h ▸ s.skipTrivia_suffix, ?_⟩
    cases mode with
    | script => exact absurd rfl hs
    | tag => exact .tagString (by simpa using hq)
    | child => exact absurd rfl hm
  | case6 s c r h t hc hd hq sym rest hsym =>
    exact .inr ⟨c :: r, h ▸ s.skipTrivia_suffix, .symbol hm hsym⟩
  | case7 s c r h t hc hd hq hsym u ih =>
    have hr : r <:+ s.rest := List.IsSuffix.trans ⟨[c], h.symm⟩ s.skipTrivia_suffix
    exact ih.imp_right fun ⟨cs, hcs, hcut⟩ => ⟨cs, hcs.trans hr, hcut⟩

theorem next_cases (mode : Mode) (s : Scanner) :
    ((s.next mode).1.val = .endOfFile ∧ (s.next mode).2.rest = []) ∨
      ∃ cs, cs <:+ s.rest ∧ Cuts mode cs (s.next mode).1.val (s.next mode).2.rest := by
  cases mode with
  | script => exact nextToken_cases (by decide) s
  | tag => exact nextToken_cases (by decide) s
  | child =>
    simp only [next]
    rw [nextChild]
    split
    · next h => exact .inl ⟨rfl, h⟩
    · next r h => exact .inr ⟨_, List.suffix_rfl, h ▸ .childOpen⟩
    · next r h => exact .inr ⟨_, List.suffix_rfl, h ▸ .childBrace⟩
    · next hnil hopen hbrace =>
      refine .inr ⟨_, List.suffix_rfl, ?_⟩
      cases hcs : s.rest with
      | nil => exact absurd hcs hnil
      | cons c r => exact .text (fun h => hopen r (h ▸ hcs)) (fun h => hbrace r (h ▸ hcs))

theorem next_faults_prefix (mode : Mode) (s : Scanner) : s.faults <+: (s.next mode).2.faults := by
  have token (mode : Mode) : s.faults <+: (s.nextToken mode).2.faults := by
    fun_induction nextToken mode s with
    | case1 s | case2 s | case3 s | case6 s => exact s.skipTrivia_faults_prefix
    | case4 s | case5 s => exact s.skipTrivia_faults_prefix.trans (List.prefix_append ..)
    | case7 s c r h t hc hd hq hsym u ih =>
      exact (s.skipTrivia_faults_prefix.trans (List.prefix_append ..)).trans ih
  cases mode with
  | script => exact token _
  | tag => exact token _
  | child =>
    simp only [next]
    rw [nextChild]
    split <;> exact List.prefix_rfl

/-! A cut takes something, and leaves what follows it. -/

theorem cutWhile_append (p : Char → Bool) (cs : List Char) :
    (cutWhile p cs).taken ++ (cutWhile p cs).rest = cs :=
  List.takeWhile_append_dropWhile

theorem fraction_append (cs : List Char) : (fraction cs).taken ++ (fraction cs).rest = cs := by
  unfold fraction
  split
  · split <;> simp
  · rfl

theorem sign_append (cs : List Char) : (sign cs).taken ++ (sign cs).rest = cs := by
  unfold sign
  split <;> rfl

theorem exponent_append (cs : List Char) : (exponent cs).taken ++ (exponent cs).rest = cs := by
  unfold exponent
  split
  · rfl
  · next e r =>
    dsimp only
    split
    · rw [List.cons_append, List.append_assoc, cutWhile_append, sign_append]
    · rfl

theorem number_append (cs : List Char) : (number cs).taken ++ (number cs).rest = cs := by
  simp only [number, List.append_assoc]
  rw [exponent_append, fraction_append, cutWhile_append]

theorem scriptString_suffix (quote : Char) (start : Nat) (cs : List Char) (offset : Nat) :
    (scriptString quote start cs offset).rest <:+ cs := by
  fun_induction scriptString quote start cs offset with
  | case1 => exact List.suffix_rfl
  | case2 offset r => exact List.suffix_cons ..
  | case3 => exact List.suffix_cons ..
  | case4 _ r _ _ _ _ _ _ ih | case5 _ r _ _ _ _ _ _ _ ih | case6 _ r _ _ _ _ _ _ ih =>
    exact ih.trans (.trans ⟨(escape r).taken, escape_append r⟩ (List.suffix_cons ..))
  | case7 _ c r _ _ _ q ih => exact ih.trans (List.suffix_cons ..)

theorem tagString_suffix (quote : Char) (start : Nat) (cs : List Char) (offset : Nat) :
    (tagString quote start cs offset).rest <:+ cs := by
  simp only [tagString]
  split
  · exact List.nil_suffix
  · next c r h => exact .trans ⟨[c], h.symm⟩ (List.dropWhile_suffix _)

theorem Cuts.suffix {mode : Mode} {cs r : List Char} {token : Token} (h : Cuts mode cs token r) :
    r <:+ cs := by
  cases h with
  | tagWord | scriptWord | text => exact List.dropWhile_suffix _
  | number => exact ⟨_, number_append _⟩
  | scriptString => exact (scriptString_suffix ..).trans (List.suffix_cons ..)
  | tagString => exact (tagString_suffix ..).trans (List.suffix_cons ..)
  | symbol _ h => exact ⟨_, append_of_symbol? h⟩
  | childOpen | childBrace => exact List.suffix_cons ..

theorem Cuts.ne_endOfFile {mode : Mode} {cs r : List Char} {token : Token}
    (h : Cuts mode cs token r) : token ≠ .endOfFile := by
  cases h with
  | scriptWord => exact Token.ofWord_ne_endOfFile _
  | _ => simp

theorem next_suffix (mode : Mode) (s : Scanner) : (s.next mode).2.rest <:+ s.rest := by
  rcases next_cases mode s with ⟨-, hr⟩ | ⟨cs, hcs, hcut⟩
  · rw [hr]
    exact List.nil_suffix
  · exact hcut.suffix.trans hcs

theorem Cuts.length_lt {mode : Mode} {cs r : List Char} {token : Token}
    (h : Cuts mode cs token r) : r.length < cs.length := by
  have le_of_suffix {p : Char → Bool} {c : Char} {r : List Char} (hc : p c = true) :
      (cutWhile p (c :: r)).rest.length < (c :: r).length := by
    simp only [cutWhile, List.dropWhile_cons_of_pos hc, List.length_cons]
    exact Nat.lt_succ_of_le (List.dropWhile_suffix _).length_le
  cases h with
  | tagWord hc => exact le_of_suffix (by simp [isNamePart, hc])
  | scriptWord hc => exact le_of_suffix (by simp [isNamePart, hc])
  | @number c r hc =>
    have h := congrArg List.length (number_append (c :: r))
    have htaken : 0 < (Scanner.number (c :: r)).taken.length := by
      simp [Scanner.number, cutWhile, List.takeWhile_cons_of_pos hc]
    rw [List.length_append] at h
    omega
  | scriptString => exact Nat.lt_succ_of_le (scriptString_suffix ..).length_le
  | tagString => exact Nat.lt_succ_of_le (tagString_suffix ..).length_le
  | @symbol _ _ s r _ h =>
    have h := congrArg List.length (append_of_symbol? h)
    have htext : 0 < s.text.toList.length := by cases s <;> decide
    rw [List.length_append] at h
    omega
  | childOpen | childBrace => exact Nat.lt_succ_self _
  | text h h' => exact le_of_suffix (p := fun d => d != '<' && d != '\x7b') (by simp [h, h'])

end Scanner

/-- Where a reader stands: at a token, with a scanner behind it, after a token that stood at
`last`. -/
structure Cursor where
  scanner : Scanner
  token : Spanned Token
  last : Span

def Parser.cursor (p : Parser) : Cursor := ⟨p.scanner, p.token, p.last⟩

namespace Cursor

def kind (c : Cursor) : Token.Kind := c.token.val.kind

/-- The name that stands here, where keywords are names too. -/
def word? (c : Cursor) : Option String :=
  match c.token.val with
  | .keyword k => some k.text
  | .ident name => some name
  | _ => none

def bump (mode : Mode) (c : Cursor) : Cursor :=
  if c.token.val = .endOfFile then c
  else ⟨(c.scanner.next mode).2, (c.scanner.next mode).1, c.token.span⟩

theorem kind_symbol {c : Cursor} {s : Symbol} : c.kind = .symbol s ↔ c.token.val = .symbol s := by
  unfold kind
  cases c.token.val <;> simp [Token.kind]

theorem kind_keyword {c : Cursor} {k : Keyword} :
    c.kind = .keyword k ↔ c.token.val = .keyword k := by
  unfold kind
  cases c.token.val <;> simp [Token.kind]

theorem kind_endOfFile {c : Cursor} : c.kind = .endOfFile ↔ c.token.val = .endOfFile := by
  unfold kind
  cases c.token.val <;> simp [Token.kind]

theorem kind_ident {c : Cursor} : c.kind = .ident ↔ ∃ name, c.token.val = .ident name := by
  unfold kind
  cases c.token.val <;> simp [Token.kind]

/-- A reader that has found no fault, some levels deep. -/
def parser (c : Cursor) (depth : Nat) : Parser := ⟨c.scanner, c.token, c.last, [], depth⟩

theorem parser_bump (c : Cursor) (depth : Nat) (mode : Mode) :
    (c.parser depth).bump mode = (c.bump mode).parser depth := by
  unfold Parser.bump bump parser
  split <;> rfl

/-- How many tokens there can still be. -/
def left (c : Cursor) : Nat :=
  c.scanner.rest.length + if c.token.val = .endOfFile then 0 else 1

theorem left_next_le (s : Scanner) (mode : Mode) (last : Span) :
    (Cursor.mk (s.next mode).2 (s.next mode).1 last).left ≤ s.rest.length := by
  simp only [left]
  rcases Scanner.next_cases mode s with ⟨ht, hr⟩ | ⟨cs, hcs, hcut⟩
  · simp [ht, hr]
  · have h1 := hcs.length_le
    have h2 := hcut.length_lt
    split <;> omega

theorem left_bump_lt {c : Cursor} (h : c.token.val ≠ .endOfFile) (mode : Mode) :
    (c.bump mode).left < c.left := by
  have hnext := left_next_le c.scanner mode c.token.span
  rw [bump, if_neg h]
  simp only [left, h, ↓reduceIte] at hnext ⊢
  omega

theorem left_bump_le (c : Cursor) (mode : Mode) : (c.bump mode).left ≤ c.left := by
  by_cases h : c.token.val = .endOfFile
  · simp [bump, h]
  · exact Nat.le_of_lt (left_bump_lt h mode)

/-- The next token, if the place is the one a statement began at. Spans past the bound of their
words can be equal though tokens were taken. -/
def past (before : Span) (c : Cursor) : Cursor :=
  if c.token.span = before then c.bump .script else c

theorem left_past_le (before : Span) (c : Cursor) : (c.past before).left ≤ c.left := by
  unfold past
  split
  · exact c.left_bump_le .script
  · exact Nat.le_refl _

/-- The token here was cut in that mode, unless the text has ended. -/
def Cut (mode : Mode) (c : Cursor) : Prop :=
  c.token.val = .endOfFile ∨ ∃ cs, Scanner.Cuts mode cs c.token.val c.scanner.rest

theorem cut_next (s : Scanner) (mode : Mode) (last : Span) :
    (Cursor.mk (s.next mode).2 (s.next mode).1 last).Cut mode :=
  (Scanner.next_cases mode s).imp And.left fun ⟨cs, _, hcut⟩ => ⟨cs, hcut⟩

theorem cut_bump (c : Cursor) (mode : Mode) : (c.bump mode).Cut mode := by
  by_cases h : c.token.val = .endOfFile
  · rw [bump, if_pos h]
    exact .inl h
  · rw [bump, if_neg h]
    exact cut_next c.scanner mode c.token.span

theorem Cut.past {c : Cursor} (h : c.Cut .script) (before : Span) : (c.past before).Cut .script := by
  unfold Cursor.past
  split
  · exact c.cut_bump .script
  · exact h

theorem cut_ofText (source : List Char) : (Parser.ofText source).cursor.Cut .script :=
  cut_next (Scanner.ofText source) .script .zero

theorem left_ofText_le (source : List Char) :
    (Parser.ofText source).cursor.left ≤ source.length :=
  left_next_le (Scanner.ofText source) .script .zero

end Cursor
end BranchMarkup
