import BranchMarkup.Proofs.Legible
import BranchMarkup.Proofs.Reading.Extent
/-! Texts that begin with a token: cut by a scanner, that token is what comes off them, whatever
stands before the text or behind it. -/
namespace BranchMarkup
namespace Scanner

/-- A scanner that has the characters before it cuts the token off them where it is, without a fault and
past no comment. -/
def Begins (mode : Mode) (cs : List Char) (t : Token) (rest : List Char) : Prop :=
  ∀ s : Scanner, s.rest = cs →
    (s.next mode).1.val = t ∧ (s.next mode).2.rest = rest ∧ (s.next mode).2.faults = s.faults ∧
      (s.next mode).2.comments = s.comments ∧
        (s.next mode).1.span = .ofOffsets s.offset (s.next mode).2.offset

/-! Trivia: blanks and comments -/

/-- A comment that ends by itself, or where a line break follows. -/
inductive IsComment : List Char → Prop where
  | line {body} : (∀ c ∈ body, c ≠ '\n') → IsComment ('/' :: '/' :: body)
  | block {body} : blockBody body = ⟨body, [], true⟩ → IsComment ('/' :: '*' :: body)

/-- What is passed over before a token, and the comments in it. -/
inductive Trivia : List String → List Char → Prop where
  | nil : Trivia [] []
  | space {ks c w} : isSpace c = true → Trivia ks w → Trivia ks (c :: w)
  | line {ks body w} : (∀ c ∈ body, c ≠ '\n') → Trivia ks w →
      Trivia (String.ofList ('/' :: '/' :: body) :: ks) ('/' :: '/' :: (body ++ '\n' :: w))
  | block {ks body w} : blockBody body = ⟨body, [], true⟩ → Trivia ks w →
      Trivia (String.ofList ('/' :: '*' :: body) :: ks) ('/' :: '*' :: (body ++ w))

theorem trivia_of_isSpace {w : List Char} (h : ∀ c ∈ w, isSpace c = true) : Trivia [] w := by
  induction w with
  | nil => exact .nil
  | cons c w ih =>
    obtain ⟨hc, hw⟩ := List.forall_mem_cons.1 h
    exact .space hc (ih hw)

theorem trivia_blanks (n : Nat) : Trivia [] (List.replicate n ' ') :=
  trivia_of_isSpace fun _ hc => List.eq_of_mem_replicate hc ▸ rfl

theorem Trivia.append {ks ls : List String} {v w : List Char} (hv : Trivia ks v) (hw : Trivia ls w) :
    Trivia (ks ++ ls) (v ++ w) := by
  induction hv with
  | nil => exact hw
  | space hc _ ih => exact .space hc ih
  | line hbody _ ih =>
    rw [List.cons_append, List.cons_append, List.cons_append, List.append_assoc, List.cons_append]
    exact .line hbody ih
  | block hbody _ ih =>
    rw [List.cons_append, List.cons_append, List.cons_append, List.append_assoc]
    exact .block hbody ih

theorem blockBody_append_of_closed {body : List Char} (w : List Char)
    (h : blockBody body = ⟨body, [], true⟩) : blockBody (body ++ w) = ⟨body, w, true⟩ := by
  fun_induction blockBody body with
  | case1 r =>
    cases h
    rfl
  | case2 c r hne b ih =>
    simp only [Comment.mk.injEq, List.cons.injEq, true_and] at h
    have hb : blockBody r = ⟨r, [], true⟩ := by
      cases hr : blockBody r
      simp_all [b]
    have hno : ∀ r', c = '*' → r ++ w ≠ '/' :: r' := by
      rintro r' rfl heq
      cases r with
      | nil => simp [blockBody] at hb
      | cons d r =>
        cases heq
        exact hne r rfl rfl
    rw [List.cons_append, blockBody.eq_2 _ _ (fun r' hc heq => hno r' hc heq), ih hb]
  | case3 => simp at h

theorem blockBody_taken (cs : List Char) (h : (blockBody cs).closed = true) :
    blockBody (blockBody cs).taken = ⟨(blockBody cs).taken, [], true⟩ := by
  fun_induction blockBody cs with
  | case1 r => rfl
  | case2 c r hne b ih =>
    have hno : ∀ r', c = '*' → b.taken ≠ '/' :: r' := by
      intro r' hc htaken
      apply hne (r' ++ b.rest) hc
      rw [← blockBody_append r, ← List.cons_append, ← htaken]
    rw [blockBody.eq_2 _ _ fun r' hc heq => hno r' hc heq, ih h]
  | case3 => cases h

/-- A comment cut off a text is whole, unless the text ended in it. -/
theorem isComment_of_comment? {cs : List Char} {c : Comment} (h : comment? cs = some c)
    (hclosed : c.closed = true) : IsComment c.taken := by
  unfold comment? at h
  split at h
  · cases h
    apply IsComment.line
    intro d hd
    simpa using List.mem_takeWhile_imp hd
  · cases h
    exact .block (blockBody_taken _ hclosed)
  · cases h

/-! Scanning a text that begins with trivia is scanning what follows it. -/

theorem skipTrivia_eq (s : Scanner) :
    s.skipTrivia =
      match comment? s.skipSpace.rest with
      | none => s.skipSpace
      | some c => (s.skipSpace.setAside c).skipTrivia := by
  rw [skipTrivia.eq_def]
  split <;> simp_all

theorem skipSpace_eq_self {s : Scanner} (h : ∀ c ∈ s.rest.head?, isSpace c = false) :
    s.skipSpace = s := by
  cases s with
  | mk rest offset comments faults =>
    cases rest with
    | nil => rfl
    | cons c r =>
      have hc : isSpace c = false := h c rfl
      simp [skipSpace, cutWhile, hc, advance]

theorem skipTrivia_eq_self {s : Scanner} (hspace : ∀ c ∈ s.rest.head?, isSpace c = false)
    (hcomment : comment? s.rest = none) : s.skipTrivia = s := by
  rw [skipTrivia_eq, skipSpace_eq_self hspace, hcomment]

theorem skipTrivia_of_space {s : Scanner} {c : Char} {r : List Char} (h : s.rest = c :: r)
    (hc : isSpace c = true) : s.skipTrivia = (s.advance [c] r).skipTrivia := by
  have hskip : s.skipSpace = (s.advance [c] r).skipSpace := by
    simp [skipSpace, cutWhile, h, hc, advance, Nat.add_assoc]
  rw [skipTrivia_eq, skipTrivia_eq (s.advance [c] r), hskip]

theorem skipTrivia_of_blanks {s : Scanner} {n : Nat} {r : List Char}
    (h : s.rest = List.replicate n ' ' ++ r) :
    s.skipTrivia = Scanner.skipTrivia { s with rest := r, offset := s.offset + n } := by
  induction n generalizing s with
  | zero =>
    rw [List.replicate_zero, List.nil_append] at h
    rw [← h]
    rfl
  | succ n ih =>
    rw [skipTrivia_of_space h rfl, ih rfl]
    congr 2
    exact (Nat.add_assoc _ 1 n).trans (by rw [Nat.add_comm 1 n])

theorem skipTrivia_of_comment {s : Scanner} {c : Comment} (h : comment? s.rest = some c) :
    s.skipTrivia = (s.setAside c).skipTrivia := by
  have hskip : s.skipSpace = s := by
    refine skipSpace_eq_self fun d hd => ?_
    unfold comment? at h
    split at h
    · next heq =>
      rw [heq] at hd
      cases hd
      rfl
    · next heq =>
      rw [heq] at hd
      cases hd
      rfl
    · cases h
  rw [skipTrivia_eq, hskip, h]

theorem exists_after_trivia {ks : List String} {w cs : List Char} (hw : Trivia ks w) {s : Scanner}
    (hs : s.rest = w ++ cs) :
    ∃ u : Scanner, u.rest = cs ∧ u.extent = s.extent ∧ u.faults = s.faults ∧
      u.comments.map (·.val) = s.comments.map (·.val) ++ ks ∧ s.skipTrivia = u.skipTrivia := by
  induction hw generalizing s with
  | nil => exact ⟨s, hs, rfl, rfl, (List.append_nil _).symm, rfl⟩
  | @space _ c w hc _ ih =>
    obtain ⟨u, hrest, hextent, hfaults, hcomments, hskip⟩ := ih (s := s.advance [c] (w ++ cs)) rfl
    refine ⟨u, hrest, ?_, hfaults, hcomments, (skipTrivia_of_space hs hc).trans hskip⟩
    rw [hextent, extent_advance (by rw [hs]; rfl)]
  | @line _ body w hbody _ ih =>
    have hnl : ∀ c ∈ body, (c != '\n') = true := by simpa using hbody
    have hcomment : comment? s.rest = some ⟨'/' :: '/' :: body, '\n' :: (w ++ cs), true⟩ := by
      rw [hs]
      simp [comment?, List.takeWhile_append_of_pos hnl, List.dropWhile_append_of_pos hnl]
    let t := s.setAside ⟨'/' :: '/' :: body, '\n' :: (w ++ cs), true⟩
    obtain ⟨u, hrest, hextent, hfaults, hcomments, hskip⟩ :=
      ih (s := t.advance ['\n'] (w ++ cs)) rfl
    refine ⟨u, hrest, ?_, hfaults, ?_, ?_⟩
    · rw [hextent, extent_advance (s := t) rfl]
      exact extent_setAside hcomment
    · rw [hcomments]
      simp [t, setAside, advance]
    · rw [skipTrivia_of_comment hcomment, skipTrivia_of_space (s := t) rfl rfl]
      exact hskip
  | @block _ body w hbody _ ih =>
    have hcomment : comment? s.rest = some ⟨'/' :: '*' :: body, w ++ cs, true⟩ := by
      rw [hs, List.cons_append, List.cons_append, List.append_assoc, comment?,
        blockBody_append_of_closed _ hbody]
    obtain ⟨u, hrest, hextent, hfaults, hcomments, hskip⟩ :=
      ih (s := s.setAside ⟨'/' :: '*' :: body, w ++ cs, true⟩) rfl
    refine ⟨u, hrest, ?_, hfaults, ?_, (skipTrivia_of_comment hcomment).trans hskip⟩
    · rw [hextent, extent_setAside hcomment]
    · rw [hcomments]
      simp [setAside, advance]

theorem nextToken_congr {s u : Scanner} (h : s.skipTrivia = u.skipTrivia) (mode : Mode) :
    s.nextToken mode = u.nextToken mode := by
  rw [nextToken.eq_def, nextToken.eq_def, h]

/-! Tokens of a script or a tag. What they begin with is neither a blank nor a comment. -/

theorem skipTrivia_of_cons {s : Scanner} {c : Char} {r : List Char} (h : s.rest = c :: r)
    (hc : isSpace c = false) (hslash : c ≠ '/' ∨ ∀ d ∈ r.head?, d ≠ '/' ∧ d ≠ '*') :
    s.skipTrivia = s := by
  refine skipTrivia_eq_self ?_ ?_
  · rw [h]
    rintro d ⟨⟩
    exact hc
  · rw [h]
    unfold comment?
    split <;> simp_all

theorem next_eq {mode : Mode} (hmode : mode ≠ .child) (s : Scanner) :
    s.next mode = s.nextToken mode := by
  cases mode with
  | script | tag => rfl
  | child => exact absurd rfl hmode

theorem next_script (s : Scanner) : s.next .script = s.nextToken .script := rfl

theorem next_tag (s : Scanner) : s.next .tag = s.nextToken .tag := rfl

theorem nextToken_of_cons {s : Scanner} {c : Char} {r : List Char} (h : s.rest = c :: r)
    (hskip : s.skipTrivia = s) (mode : Mode) :
    s.nextToken mode =
      if isNameStart c then
        s.emit (s.advance (word mode (c :: r)).taken (word mode (c :: r)).rest)
          (if mode = .tag then .ident (String.ofList (word mode (c :: r)).taken)
            else .ofWord (String.ofList (word mode (c :: r)).taken))
      else if c.isDigit && mode = .script then
        s.emit (s.advance (number (c :: r)).taken (number (c :: r)).rest)
          (.number (String.ofList (number (c :: r)).taken))
      else if c = '"' || c = '\'' then
        if mode = .script then s.quoted (scriptString c s.offset r (s.offset + 1))
        else s.quoted (tagString c s.offset r (s.offset + 1))
      else
        match symbol? mode (c :: r) with
        | some (sym, rest) => s.emit (s.advance sym.text.toList rest) (.symbol sym)
        | none =>
          nextToken mode
            { s.advance [c] r with
              faults := s.faults ++
                [⟨.unexpectedChar c, .ofOffsets s.offset (s.advance [c] r).offset⟩] } := by
  rw [nextToken.eq_def, hskip]
  split
  · next heq => cases h.symm.trans heq
  · next heq =>
    cases h.symm.trans heq
    rfl

theorem isSpace_of_isNameStart {c : Char} (h : isNameStart c = true) : isSpace c = false := by
  cases hs : isSpace c with
  | false => rfl
  | true =>
    simp only [isSpace, Bool.or_eq_true, decide_eq_true_eq] at hs
    obtain (((rfl | rfl) | rfl) | rfl) | rfl := hs <;> simp [isNameStart] at h

theorem cutWhile_stop {p : Char → Bool} {taken rest : List Char} (h : ∀ c ∈ taken, p c = true)
    (hrest : ∀ c ∈ rest.head?, p c = false) : cutWhile p (taken ++ rest) = ⟨taken, rest⟩ := by
  rw [cutWhile, List.takeWhile_append_of_pos h, List.dropWhile_append_of_pos h]
  cases rest with
  | nil => simp
  | cons c r => simp [hrest c rfl]

theorem word_stop {mode : Mode} {w rest : List Char} (hw : IsWord mode w)
    (hrest : ∀ c ∈ rest.head?, isWordPart mode c = false) : word mode (w ++ rest) = ⟨w, rest⟩ := by
  obtain ⟨c, r, rfl, hc, hr⟩ := hw
  rw [word_eq]
  refine cutWhile_stop ?_ hrest
  intro d hd
  rcases List.mem_cons.1 hd with rfl | hd
  · exact isWordPart_of_isNameStart hc
  · exact hr d hd

theorem ne_slash_of_isNameStart {c : Char} (h : isNameStart c = true) : c ≠ '/' := by
  rintro rfl
  simp [isNameStart] at h

theorem begins_word {w rest : List Char} (hw : IsWord .script w)
    (hrest : ∀ c ∈ rest.head?, isNamePart c = false) :
    Begins .script (w ++ rest) (.ofWord (String.ofList w)) rest := by
  intro s hs
  have hcut : word .script (w ++ rest) = ⟨w, rest⟩ :=
    word_stop hw fun c hc => by simp [isWordPart, hrest c hc]
  obtain ⟨c, r, rfl, hc, -⟩ := hw
  rw [List.cons_append] at hcut hs
  have hskip := skipTrivia_of_cons hs (isSpace_of_isNameStart hc) (.inl (ne_slash_of_isNameStart hc))
  rw [next_script, nextToken_of_cons hs hskip, if_pos hc, hcut]
  exact ⟨rfl, rfl, rfl, rfl, rfl⟩

theorem begins_tagWord {w rest : List Char} (hw : IsWord .tag w)
    (hrest : ∀ c ∈ rest.head?, isWordPart .tag c = false) :
    Begins .tag (w ++ rest) (.ident (String.ofList w)) rest := by
  intro s hs
  have hcut : word .tag (w ++ rest) = ⟨w, rest⟩ := word_stop hw hrest
  obtain ⟨c, r, rfl, hc, -⟩ := hw
  rw [List.cons_append] at hcut hs
  have hskip := skipTrivia_of_cons hs (isSpace_of_isNameStart hc) (.inl (ne_slash_of_isNameStart hc))
  rw [next_tag, nextToken_of_cons hs hskip, if_pos hc, hcut]
  exact ⟨rfl, rfl, rfl, rfl, rfl⟩

def Stops (rest : List Char) : Prop :=
  ∀ c ∈ rest.head?, isNamePart c = false ∧ (c = '.' → ∀ d ∈ rest.tail.head?, d.isDigit = false)

theorem Stops.not_isDigit {rest : List Char} (h : Stops rest) : ∀ c ∈ rest.head?, c.isDigit = false := by
  intro c hc
  have := (h c hc).1
  rw [isNamePart, Bool.or_eq_false_iff] at this
  exact this.2

theorem fraction_stop {frac rest : List Char}
    (h : frac = [] ∨ ∃ ds, frac = '.' :: ds ∧ IsDigits ds)
    (hrest : ∀ c ∈ rest.head?, c.isDigit = false ∧
      (frac = [] → c = '.' → ∀ d ∈ rest.tail.head?, d.isDigit = false)) :
    fraction (frac ++ rest) = ⟨frac, rest⟩ := by
  rcases h with rfl | ⟨ds, rfl, hne, hds⟩
  · rw [List.nil_append, fraction.eq_def]
    split
    · next d r => rw [if_neg (by simp [(hrest '.' rfl).2 rfl rfl d rfl])]
    · rfl
  · obtain ⟨d, ds, rfl⟩ := List.exists_cons_of_ne_nil hne
    have hcut := cutWhile_stop (fun c hc => hds c (List.mem_cons_of_mem _ hc))
      fun c hc => (hrest c hc).1
    rw [cutWhile, Cut.mk.injEq] at hcut
    simp [fraction, hds d, hcut]

theorem sign_stop {sign ds rest : List Char} (h : sign = [] ∨ sign = ['+'] ∨ sign = ['-'])
    (hds : IsDigits ds) : Scanner.sign (sign ++ ds ++ rest) = ⟨sign, ds ++ rest⟩ := by
  rcases h with rfl | rfl | rfl
  · obtain ⟨d, ds, rfl⟩ := List.exists_cons_of_ne_nil hds.1
    have hd : d.isDigit = true := hds.2 d List.mem_cons_self
    rw [List.nil_append, List.cons_append, Scanner.sign.eq_def]
    split
    · next heq =>
      cases heq
      cases hd
    · next heq =>
      cases heq
      cases hd
    · rfl
  · rfl
  · rfl

theorem exponent_stop {exp rest : List Char}
    (h : exp = [] ∨ ∃ e sign ds, exp = e :: (sign ++ ds) ∧ (e = 'e' ∨ e = 'E') ∧
      (sign = [] ∨ sign = ['+'] ∨ sign = ['-']) ∧ IsDigits ds)
    (hrest : Stops rest) : exponent (exp ++ rest) = ⟨exp, rest⟩ := by
  rcases h with rfl | ⟨e, sign, ds, rfl, he, hsign, hds⟩
  · cases rest with
    | nil => rfl
    | cons c r =>
      have hc : ¬ (c = 'e' ∨ c = 'E') := by
        have := (hrest c rfl).1
        rintro (rfl | rfl) <;> cases this
      rw [List.nil_append, exponent.eq_def]
      simp only
      rw [if_neg (by simpa using fun h => absurd h hc)]
  · have hcut := cutWhile_stop hds.2 hrest.not_isDigit
    rw [List.cons_append, exponent.eq_def]
    simp only [sign_stop hsign hds, hcut]
    rw [if_pos (by simpa [hds.1] using he)]

theorem number_stop {ds rest : List Char} (h : IsNumber ds) (hrest : Stops rest) :
    number (ds ++ rest) = ⟨ds, rest⟩ := by
  obtain ⟨whole, frac, exp, rfl, ⟨hne, hwhole⟩, hfrac, hexp⟩ := h
  have hexpHead : ∀ c ∈ (exp ++ rest).head?, c.isDigit = false ∧
      (frac = [] → c = '.' → ∀ d ∈ (exp ++ rest).tail.head?, d.isDigit = false) := by
    rcases hexp with rfl | ⟨e, sign, es, rfl, he, -, -⟩
    · exact fun c hc => ⟨hrest.not_isDigit c hc, fun _ => (hrest c hc).2⟩
    · rintro c ⟨⟩
      rcases he with rfl | rfl <;> exact ⟨rfl, by simp⟩
  have hcut : cutWhile Char.isDigit (whole ++ (frac ++ (exp ++ rest))) =
      ⟨whole, frac ++ (exp ++ rest)⟩ := by
    refine cutWhile_stop hwhole ?_
    rcases hfrac with rfl | ⟨fs, rfl, -⟩
    · exact fun c hc => (hexpHead c hc).1
    · rintro c ⟨⟩
      rfl
  simp only [List.append_assoc, number, hcut, fraction_stop hfrac hexpHead, exponent_stop hexp hrest]

theorem not_isNameStart_of_isDigit {c : Char} (h : c.isDigit = true) : isNameStart c = false := by
  have hd : 48 ≤ c.toNat ∧ c.toNat ≤ 57 := by
    simpa [Char.isDigit, UInt32.le_iff_toNat_le, ← Char.toNat_val] using h
  have hdigits : ∀ n < 58, 48 ≤ n → isNameStart (Char.ofNat n) = false := by decide
  rw [← Char.ofNat_toNat c]
  exact hdigits _ (Nat.lt_succ_of_le hd.2) hd.1

theorem isSpace_of_isDigit {c : Char} (h : c.isDigit = true) : isSpace c = false := by
  cases hs : isSpace c with
  | false => rfl
  | true =>
    simp only [isSpace, Bool.or_eq_true, decide_eq_true_eq] at hs
    obtain (((rfl | rfl) | rfl) | rfl) | rfl := hs <;> cases h

theorem begins_number {ds rest : List Char} (h : IsNumber ds) (hrest : Stops rest) :
    Begins .script (ds ++ rest) (.number (String.ofList ds)) rest := by
  intro s hs
  have hcut := number_stop h hrest
  obtain ⟨c, r, hds⟩ : ∃ c r, ds = c :: r := by
    obtain ⟨whole, frac, exp, rfl, ⟨hne, -⟩, -⟩ := h
    obtain ⟨c, r, rfl⟩ := List.exists_cons_of_ne_nil hne
    exact ⟨c, _, rfl⟩
  have hc : c.isDigit = true := by
    obtain ⟨whole, frac, exp, heq, ⟨hne, hwhole⟩, -⟩ := h
    obtain ⟨d, whole, rfl⟩ := List.exists_cons_of_ne_nil hne
    cases hds.symm.trans heq
    exact hwhole _ List.mem_cons_self
  subst hds
  rw [List.cons_append] at hcut hs
  have hname := not_isNameStart_of_isDigit hc
  have hskip := skipTrivia_of_cons hs (isSpace_of_isDigit hc) (.inl (by rintro rfl; cases hc))
  rw [next_script, nextToken_of_cons hs hskip, if_neg (by simp [hname]), if_pos (by simp [hc]), hcut]
  exact ⟨rfl, rfl, rfl, rfl, rfl⟩

/-! Symbols, and the end of the text -/

theorem plain_of_symbol? {mode : Mode} {c : Char} {r rest : List Char} {sym : Symbol}
    (h : symbol? mode (c :: r) = some (sym, rest)) :
    isSpace c = false ∧ isNameStart c = false ∧ c.isDigit = false ∧ ¬(c = '"' ∨ c = '\'') := by
  unfold symbol? at h
  split at h <;> first
    | cases h; done
    | (next heq =>
        cases heq
        decide)

theorem begins_symbol {mode : Mode} {c : Char} {r rest : List Char} {sym : Symbol}
    (hmode : mode ≠ .child) (h : symbol? mode (c :: r) = some (sym, rest))
    (hslash : c ≠ '/' ∨ ∀ d ∈ r.head?, d ≠ '/' ∧ d ≠ '*') :
    Begins mode (c :: r) (.symbol sym) rest := by
  intro s hs
  obtain ⟨hspace, hname, hdigit, hquote⟩ := plain_of_symbol? h
  have hskip := skipTrivia_of_cons hs hspace hslash
  have hnext : s.next mode = s.emit (s.advance sym.text.toList rest) (.symbol sym) := by
    rw [next_eq hmode, nextToken_of_cons hs hskip, if_neg (by simp [hname]), if_neg (by simp [hdigit]),
      if_neg (by simpa using hquote), h]
  rw [hnext]
  exact ⟨rfl, rfl, rfl, rfl, rfl⟩

theorem begins_end {mode : Mode} (hmode : mode ≠ .child) : Begins mode [] .endOfFile [] := by
  intro s hs
  have hskip : s.skipTrivia = s := by
    refine skipTrivia_eq_self ?_ ?_
    · simp [hs]
    · rw [hs]
      rfl
  have hnext : s.next mode = s.emit s .endOfFile := by
    rw [next_eq hmode, nextToken.eq_def, hskip]
    split
    · rfl
    · next heq => cases hs.symm.trans heq
  rw [hnext]
  exact ⟨rfl, hs, rfl, rfl, rfl⟩

theorem symbol?_alone {mode : Mode} {r : List Char} (h : ∀ d ∈ r.head?, d ≠ '=') :
    symbol? mode ('!' :: r) = some (.bang, r) ∧ symbol? mode ('=' :: r) = some (.eq, r) ∧
      symbol? mode ('<' :: r) = some (.lt, r) := by
  cases r with
  | nil => exact ⟨rfl, rfl, rfl⟩
  | cons d r =>
    have hd : d ≠ '=' := h d rfl
    refine ⟨?_, ?_, ?_⟩ <;> simp [symbol?, hd]

theorem symbol?_angle (r : List Char) :
    symbol? .tag ('<' :: r) = some (.lt, r) ∧ symbol? .tag ('>' :: r) = some (.gt, r) := by
  cases r with
  | nil => exact ⟨rfl, rfl⟩
  | cons d r =>
    by_cases hd : d = '='
    · rw [hd]
      exact ⟨rfl, rfl⟩
    · constructor <;> simp [symbol?, hd]

/-! Tokens between tags -/

theorem begins_childOpen (r : List Char) : Begins .child ('<' :: r) (.symbol .lt) r := by
  intro s hs
  rw [next, nextChild]
  split <;> first
    | (next heq =>
        cases hs.symm.trans heq
        done)
    | (next heq =>
        cases hs.symm.trans heq
        exact ⟨rfl, rfl, rfl, rfl, rfl⟩)
    | (next hopen _ => exact absurd hs (hopen r))

theorem begins_childBrace (r : List Char) :
    Begins .child ('\x7b' :: r) (.symbol .lbrace) r := by
  intro s hs
  rw [next, nextChild]
  split <;> first
    | (next heq =>
        cases hs.symm.trans heq
        done)
    | (next heq =>
        cases hs.symm.trans heq
        exact ⟨rfl, rfl, rfl, rfl, rfl⟩)
    | (next hbrace => exact absurd hs (hbrace r))

theorem begins_text {s : String} (h : IsRawText s) {rest : List Char}
    (hrest : ∀ c ∈ rest.head?, c = '<' ∨ c = '\x7b') :
    Begins .child (s.toList ++ rest) (.text s) rest := by
  intro t ht
  obtain ⟨c, r, hs⟩ : ∃ c r, s.toList = c :: r :=
    List.exists_cons_of_ne_nil (by simpa using h.1)
  have hc := h.2 c (by rw [hs]; exact List.mem_cons_self)
  have hcut : cutWhile (fun d => d != '<' && d != '\x7b') (s.toList ++ rest) = ⟨s.toList, rest⟩ := by
    refine cutWhile_stop (fun d hd => by simpa using h.2 d hd) fun d hd => ?_
    rcases hrest d hd with rfl | rfl <;> decide
  rw [next, nextChild]
  split
  · next heq => simp [hs] at ht heq; simp [ht] at heq
  · next heq =>
    rw [ht, hs] at heq
    cases heq
    exact absurd rfl hc.1
  · next heq =>
    rw [ht, hs] at heq
    cases heq
    exact absurd rfl hc.2
  · rw [ht, hcut]
    exact ⟨by simp [emit], rfl, rfl, rfl, rfl⟩

end Scanner
end BranchMarkup
