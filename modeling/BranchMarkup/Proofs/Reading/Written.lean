import BranchMarkup.Proofs.Reading.Borders
import BranchMarkup.Proofs.Reading.Legible
import BranchMarkup.Proofs.Reading.Quote
/-! How tokens are written. A request that notes no fault passes over blanks and comments, none of them
between tags, and takes off exactly the text that the token is written as. -/
namespace BranchMarkup

open Text (byteLength byteLength_append byteLength_cons byteLength_toList)

/-- The text is one that a token of that mode is written as. -/
def Token.Written (mode : Mode) (x : List Char) : Token → Prop
  | keyword k => mode = .script ∧ x = k.text.toList
  | symbol s => x = s.text.toList
  | number digits => mode = .script ∧ x = digits.toList
  | ident name => mode ≠ .child ∧ x = name.toList
  | string value => ∃ quote body, (quote = '"' ∨ quote = '\'') ∧ x = quote :: (body ++ [quote]) ∧
      match mode with
      | .script => Scanner.Unescapes quote body value.toList
      | .tag => body = value.toList ∧ quote ∉ body
      | .child => False
  | text raw => mode = .child ∧ x = raw.toList
  | endOfFile => False

theorem Token.written_ofWord {mode : Mode} (hmode : mode ≠ .child) (w : List Char) :
    (if mode = .tag then ident (String.ofList w) else ofWord (String.ofList w)).Written mode w := by
  split
  · exact ⟨hmode, by simp⟩
  · next htag =>
    obtain rfl : mode = .script := by cases mode <;> simp_all
    rcases ofWord_cases (String.ofList w) with ⟨k, hk, hword⟩ | ⟨-, hword⟩
    · rw [hword]
      exact ⟨rfl, by simp [hk]⟩
    · rw [hword]
      exact ⟨hmode, by simp⟩

namespace Scanner

/-- Where the next token of that mode is looked for. -/
def skipTo (mode : Mode) (s : Scanner) : Scanner :=
  match mode with
  | .child => s
  | _ => s.skipTrivia

theorem skipTo_of_ne_child {mode : Mode} (h : mode ≠ .child) (s : Scanner) :
    s.skipTo mode = s.skipTrivia := by
  cases mode <;> first
    | rfl
    | exact absurd rfl h

/-- What a request comes to that notes no fault after `t`: the end of the text, or a token as it is
written. -/
inductive Answers (mode : Mode) (t : Scanner) : Spanned Token × Scanner → Prop where
  | ended : t.rest = [] → Answers mode t (t.emit t .endOfFile)
  | token {token : Token} {x r : List Char} : token.Written mode x → x ≠ [] → t.rest = x ++ r →
      Answers mode t (t.emit (t.advance x r) token)

/-! What a request passes over -/

theorem closed_of_skipTrivia {s : Scanner} {c : Comment}
    (h : (s.skipSpace.setAside c).skipTrivia.faults = s.faults) :
    c.closed = true ∧ (s.skipSpace.setAside c).faults = s.faults := by
  have hprefix := skipTrivia_faults_prefix (s.skipSpace.setAside c)
  have hclosed : c.closed = true := by
    by_contra hopen
    have hlength := hprefix.length_le
    rw [h] at hlength
    simp only [setAside, skipSpace, advance, hopen, ↓reduceIte, List.length_append,
      List.length_singleton] at hlength
    omega
  exact ⟨hclosed, by simp [setAside, skipSpace, advance, hclosed]⟩

theorem head_skipTrivia (s : Scanner) : ∀ c ∈ s.skipTrivia.rest.head?, isSpace c = false := by
  fun_induction skipTrivia s with
  | case1 s =>
    intro c hc
    have hnot := List.head?_dropWhile_not isSpace s.rest
    have hrest : (s.rest.dropWhile isSpace).head? = some c := hc
    rw [hrest] at hnot
    simpa using hnot
  | case2 s c _ ih => exact ih

theorem trivia_of_comment {cs : List Char} {c : Comment} (hc : comment? cs = some c)
    (hclosed : c.closed = true) {ks : List String} {gap rest : List Char} (hgap : Trivia ks gap)
    (hsplit : c.rest = gap ++ rest) (hrest : ∀ d ∈ rest.head?, isSpace d = false) (hne : rest ≠ []) :
    ∃ ks', Trivia ks' (c.taken ++ gap) := by
  unfold comment? at hc
  split at hc
  · next r =>
    cases hc
    have hbody : ∀ d ∈ r.takeWhile (· != '\n'), d ≠ '\n' := fun d hd => by
      simpa using List.mem_takeWhile_imp hd
    have hnot := List.head?_dropWhile_not (· != '\n') r
    dsimp only at hsplit ⊢
    cases hgap with
    | nil =>
      -- The line break that ends the comment would be what `rest` begins with.
      obtain ⟨d, rest, rfl⟩ := List.exists_cons_of_ne_nil hne
      rw [hsplit] at hnot
      obtain rfl : d = '\n' := by simpa using hnot
      exact absurd (hrest _ rfl) (by decide)
    | @space _ d w hd hw =>
      rw [hsplit] at hnot
      obtain rfl : d = '\n' := by simpa using hnot
      exact ⟨_, .line hbody hw⟩
    | line | block =>
      rw [hsplit] at hnot
      simp at hnot
  · cases hc
    exact ⟨_, .block (blockBody_taken _ hclosed) hgap⟩
  · cases hc

/-- Where a token is found, what was passed over on the way to it without a fault is trivia. -/
theorem trivia_skipTrivia {s : Scanner} (h : s.skipTrivia.faults = s.faults)
    (hrest : s.skipTrivia.rest ≠ []) :
    ∃ ks gap, Trivia ks gap ∧ s.rest = gap ++ s.skipTrivia.rest := by
  have hspace (s : Scanner) : ∃ w, Trivia [] w ∧ s.rest = w ++ s.skipSpace.rest :=
    ⟨_, trivia_of_isSpace fun _ => List.mem_takeWhile_imp, List.takeWhile_append_dropWhile.symm⟩
  fun_induction skipTrivia s with
  | case1 s hnone =>
    obtain ⟨w, hw, hsplit⟩ := hspace s
    exact ⟨_, w, hw, hsplit⟩
  | case2 s c hc ih =>
    obtain ⟨w, hw, hsplit⟩ := hspace s
    obtain ⟨hclosed, hfaults⟩ := closed_of_skipTrivia h
    obtain ⟨ks, gap, hgap, hbehind⟩ := ih (h.trans hfaults.symm) hrest
    have hbehind : c.rest = gap ++ (s.skipSpace.setAside c).skipTrivia.rest := hbehind
    obtain ⟨ks', hcomment⟩ := trivia_of_comment hc hclosed hgap hbehind (head_skipTrivia _) hrest
    refine ⟨_, w ++ (c.taken ++ gap), hw.append hcomment, ?_⟩
    rw [hsplit, ← append_of_comment? hc, hbehind, List.append_assoc, List.append_assoc]

/-! What is taken -/

theorem scriptString_split {quote : Char} {start : Nat} {cs : List Char} {offset : Nat}
    (h : (scriptString quote start cs offset).faults = []) :
    ∃ body, cs = body ++ quote :: (scriptString quote start cs offset).rest ∧
      Unescapes quote body (scriptString quote start cs offset).value ∧
      (scriptString quote start cs offset).offset = offset + byteLength (body ++ [quote]) := by
  obtain ⟨body, hbody, hmeans⟩ := unescapes_of_scriptString h
  refine ⟨body, hbody, hmeans, ?_⟩
  have hextent := scriptString_extent quote start cs offset
  have hlength := congrArg byteLength hbody
  simp only [byteLength_append, byteLength_cons, Text.byteLength_nil] at hlength ⊢
  omega

theorem tagString_split {quote : Char} (hquote : quote.utf8Size = 1) {start : Nat} {cs : List Char}
    {offset : Nat} (h : (tagString quote start cs offset).faults = []) :
    cs = (tagString quote start cs offset).value ++ quote :: (tagString quote start cs offset).rest ∧
      quote ∉ (tagString quote start cs offset).value ∧
      (tagString quote start cs offset).offset =
        offset + byteLength ((tagString quote start cs offset).value ++ [quote]) := by
  have happend := cutWhile_append (· != quote) cs
  have hnot := List.head?_dropWhile_not (· != quote) cs
  unfold tagString at h ⊢
  simp only [cutWhile] at h happend ⊢
  split at h
  · cases h
  · next c r hrest =>
    rw [hrest] at happend hnot
    obtain rfl : c = quote := by simpa using hnot
    dsimp only
    refine ⟨happend.symm, fun hmem => ?_, ?_⟩
    · simpa using List.mem_takeWhile_imp hmem
    · simp [hquote, Nat.add_assoc]

theorem answers_quoted {mode : Mode} {s : Scanner} {q : Quoted} {quote : Char} {body r : List Char}
    (hquote : quote = '"' ∨ quote = '\'') (hrest : s.rest = quote :: r)
    (hsplit : r = body ++ quote :: q.rest) (hoffset : q.offset = s.offset + 1 + byteLength (body ++ [quote]))
    (hfaults : q.faults = [])
    (hwritten : (Token.string (String.ofList q.value)).Written mode (quote :: (body ++ [quote]))) :
    Answers mode s (s.quoted q) := by
  have hsize : quote.utf8Size = 1 := by rcases hquote with rfl | rfl <;> rfl
  have hall : s.rest = quote :: (body ++ [quote]) ++ q.rest := by
    rw [hrest, hsplit]
    simp
  have hnext : s.quoted q =
      s.emit (s.advance (quote :: (body ++ [quote])) q.rest) (.string (String.ofList q.value)) := by
    simp only [quoted, advance, hfaults, List.append_nil, hoffset, byteLength_cons, hsize,
      Nat.add_assoc]
  rw [hnext]
  exact .token hwritten (by simp) hall

theorem faults_of_skipTrivia {s : Scanner} {fs : List (Spanned Fault)}
    (h : s.skipTrivia.faults ++ fs = s.faults) : s.skipTrivia.faults = s.faults ∧ fs = [] := by
  have hlength := congrArg List.length h
  have hle := s.skipTrivia_faults_prefix.length_le
  rw [List.length_append] at hlength
  obtain rfl : fs = [] := List.length_eq_zero_iff.1 (by omega)
  exact ⟨by simpa using h, rfl⟩

theorem answers_nextToken {mode : Mode} (hmode : mode ≠ .child) {s : Scanner}
    (h : (s.nextToken mode).2.faults = s.faults) :
    s.skipTrivia.faults = s.faults ∧ Answers mode s.skipTrivia (s.nextToken mode) := by
  fun_induction nextToken mode s with
  | case1 s hrest => exact ⟨h, .ended hrest⟩
  | case2 s c r hrest t hc w name =>
    refine ⟨h, .token (x := w.taken) (Token.written_ofWord hmode _) ?_ ?_⟩
    · have hp : isNamePart c = true := by simp [isNamePart, hc]
      simp [w, word, cutWhile, hp]
    · rw [hrest]
      exact (cutWhile_append ..).symm
  | case3 s c r hrest t hc hd n =>
    obtain ⟨hdigit, hscript⟩ : c.isDigit = true ∧ mode = .script := by simpa using hd
    refine ⟨h, .token (x := n.taken) ⟨hscript, by simp⟩ ?_ ?_⟩
    · simp [n, number, cutWhile, hdigit]
    · rw [hrest]
      exact (number_append _).symm
  | case4 s c r hrest t hc hd hq hs =>
    obtain ⟨hfaults, hnone⟩ := faults_of_skipTrivia h
    obtain ⟨body, hbody, hmeans, hoffset⟩ := scriptString_split hnone
    have hquote : c = '"' ∨ c = '\'' := by simpa using hq
    refine ⟨hfaults, answers_quoted hquote hrest hbody hoffset hnone ⟨c, body, hquote, rfl, ?_⟩⟩
    simpa [hs] using hmeans
  | case5 s c r hrest t hc hd hq hs =>
    obtain ⟨hfaults, hnone⟩ := faults_of_skipTrivia h
    have hquote : c = '"' ∨ c = '\'' := by simpa using hq
    have hsize : c.utf8Size = 1 := by rcases hquote with rfl | rfl <;> rfl
    obtain ⟨hbody, hnot, hoffset⟩ := tagString_split hsize hnone
    refine ⟨hfaults, answers_quoted hquote hrest hbody hoffset hnone ⟨c, _, hquote, rfl, ?_⟩⟩
    cases mode with
    | script => exact absurd rfl hs
    | tag => exact ⟨by simp, hnot⟩
    | child => exact absurd rfl hmode
  | case6 s c r hrest t hc hd hq sym rest hsym =>
    refine ⟨h, .token rfl (by cases sym <;> decide) ?_⟩
    rw [hrest]
    exact (append_of_symbol? hsym).symm
  | case7 s c r hrest t hc hd hq hsym u _ =>
    -- The character that begins no token would be a fault.
    have hprefix := next_faults_prefix mode { u with
      faults := t.faults ++ [⟨.unexpectedChar c, .ofOffsets t.offset u.offset⟩] }
    have hlength := hprefix.length_le
    rw [next_eq hmode] at hlength
    rw [h, List.length_append] at hlength
    have hle : s.faults.length ≤ t.faults.length := s.skipTrivia_faults_prefix.length_le
    simp only [List.length_singleton] at hlength
    omega

theorem answers_next {mode : Mode} {s : Scanner} (h : (s.next mode).2.faults = s.faults) :
    (s.skipTo mode).faults = s.faults ∧ Answers mode (s.skipTo mode) (s.next mode) := by
  by_cases hmode : mode = .child
  · subst hmode
    refine ⟨rfl, ?_⟩
    rw [next, skipTo, nextChild]
    split
    · next hrest => exact .ended hrest
    · next r hrest => exact .token (x := ['<']) rfl (by simp) hrest
    · next r hrest => exact .token (x := ['\x7b']) rfl (by simp) hrest
    · next hnil hopen hbrace =>
      refine .token ⟨rfl, by simp⟩ ?_ (cutWhile_append ..).symm
      obtain ⟨c, r, hcs⟩ := List.exists_cons_of_ne_nil hnil
      have h1 : c ≠ '<' := fun h => hopen r (h ▸ hcs)
      have h2 : c ≠ '\x7b' := fun h => hbrace r (h ▸ hcs)
      simp [hcs, cutWhile, h1, h2]
  · rw [next_eq hmode] at h ⊢
    rw [skipTo_of_ne_child hmode]
    exact answers_nextToken hmode h

/-! A string that is printed in quotes -/

end Scanner
end BranchMarkup
