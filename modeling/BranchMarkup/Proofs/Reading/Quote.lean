import BranchMarkup.Printer.Piece
import BranchMarkup.Proofs.Reading.Tokens
/-! Strings between quotes. What a script string means is a relation of its text to its characters; a
string that is printed in quotes is cut off as that string, whatever follows. -/
namespace BranchMarkup
namespace Scanner

open Text (byteLength)

theorem escape_hex {hex r : List Char} (hlen : hex.length = 4)
    (hhex : hex.all isHexDigit = true) {c : Char} (hc : charOfCode? (hexNumber hex) = some c) :
    escape ('u' :: (hex ++ r)) = ⟨.char c, 'u' :: hex, r⟩ := by
  have htake : (hex ++ r).take 4 = hex := by rw [← hlen, List.take_left]
  have hdrop : (hex ++ r).drop 4 = r := by rw [← hlen, List.drop_left]
  have hwhile : hex.takeWhile isHexDigit = hex :=
    List.takeWhile_eq_self_iff.2 (List.all_eq_true.1 hhex)
  rw [escape]
  simp only [htake, hwhile, hlen, hdrop, hc, ↓reduceIte, Option.elim_some]

theorem control_code : ∀ n < 0x20,
    ['0', '0', Json.hexDigit (n / 16), Json.hexDigit (n % 16)].all isHexDigit = true ∧
      charOfCode? (hexNumber ['0', '0', Json.hexDigit (n / 16), Json.hexDigit (n % 16)]) =
        some (Char.ofNat n) := by
  decide +kernel

/-- An escape that means a character is over by itself: what follows has no part in it. -/
theorem escape_append_of_char {r : List Char} {c : Char} (h : (escape r).value = .char c)
    (rest : List Char) : escape ((escape r).taken ++ rest) = ⟨.char c, (escape r).taken, rest⟩ := by
  unfold escape at h
  split at h
  case h_1 => cases h
  case h_6 r =>
    simp only at h
    set hex := (r.take 4).takeWhile isHexDigit with hhex
    have hall : hex.all isHexDigit = true :=
      List.all_eq_true.2 fun d hd => List.mem_takeWhile_imp hd
    by_cases hlen : hex.length = 4
    · rw [if_pos hlen] at h
      cases hcode : charOfCode? (hexNumber hex) with
      | none =>
        rw [hcode] at h
        cases h
      | some d =>
        rw [hcode] at h
        cases h
        have htaken : (escape ('u' :: r)).taken = 'u' :: hex := rfl
        rw [htaken, List.cons_append, escape_hex hlen hall hcode]
    · rw [if_neg hlen] at h
      cases h
  all_goals
    cases h
    simp_all [escape]

theorem eq_nil_of_escape {r : List Char} (h : (escape r).value = .nothing) : r = [] := by
  unfold escape at h
  split at h
  case h_1 => rfl
  case h_6 r =>
    have hne (o : Option Char) : o.elim Escaped.invalid .char ≠ .nothing := by cases o <;> simp
    exact absurd h (hne _)
  all_goals cases h

/-- The text between the quotes of a script string, and what it means. -/
inductive Unescapes (quote : Char) : List Char → List Char → Prop where
  | nil : Unescapes quote [] []
  | plain {c cs ds} : c ≠ quote → c ≠ '\n' → c ≠ '\\' → Unescapes quote cs ds →
      Unescapes quote (c :: cs) (c :: ds)
  | escape {e c cs ds} : (∀ r, Scanner.escape (e ++ r) = ⟨.char c, e, r⟩) → Unescapes quote cs ds →
      Unescapes quote ('\\' :: (e ++ cs)) (c :: ds)

theorem scriptString_of_unescapes {quote : Char} {body ds : List Char} (h : Unescapes quote body ds)
    (hquote : quote ≠ '\\') (start : Nat) (rest : List Char) (offset : Nat) :
    scriptString quote start (body ++ quote :: rest) offset =
      ⟨ds, rest, offset + byteLength (body ++ [quote]), []⟩ := by
  induction h generalizing offset with
  | nil =>
    rw [List.nil_append, scriptString.eq_def]
    simp
  | @plain c cs ds h1 h2 h3 _ ih =>
    rw [List.cons_append, scriptString.eq_def]
    simp only [h1, h2, h3, ↓reduceIte, ih]
    simp [Nat.add_assoc]
  | @escape e c cs ds he _ ih =>
    rw [List.cons_append, List.append_assoc, scriptString.eq_def]
    simp only [hquote.symm, ↓reduceIte, he, ih]
    have hsize : ('\\').utf8Size = 1 := rfl
    simp [hsize, Nat.add_assoc]

theorem unescapes_of_scriptString {quote : Char} {start : Nat} {cs : List Char} {offset : Nat}
    (h : (scriptString quote start cs offset).faults = []) :
    ∃ body, cs = body ++ quote :: (scriptString quote start cs offset).rest ∧
      Unescapes quote body (scriptString quote start cs offset).value := by
  fun_induction scriptString quote start cs offset with
  | case1 | case3 => cases h
  | case2 offset r => exact ⟨[], rfl, .nil⟩
  | case4 offset r e next q hvalue _ _ ih =>
    -- The text ends with the backslash, and the string is still open there.
    obtain ⟨body, hbody, -⟩ := ih h
    obtain rfl := eq_nil_of_escape hvalue
    have hnil : e.rest = [] := rfl
    simp [hnil] at hbody
  | case5 offset r e next q d hvalue _ _ ih =>
    obtain ⟨body, hbody, hmeans⟩ := ih h
    refine ⟨'\\' :: (e.taken ++ body), ?_, .escape (escape_append_of_char hvalue) hmeans⟩
    have happend : e.taken ++ e.rest = r := escape_append r
    rw [← happend, hbody]
    simp [q]
  | case6 => cases h
  | case7 offset c r hquote hbreak hslash q ih =>
    obtain ⟨body, hbody, hmeans⟩ := ih h
    refine ⟨c :: body, ?_, .plain hquote hbreak hslash hmeans⟩
    rw [List.cons_append]
    exact congrArg (c :: ·) hbody

theorem quoteChar_cases (c : Char) :
    (quoteChar c = [c] ∧ c ≠ '"' ∧ c ≠ '\n' ∧ c ≠ '\\') ∨
      ∃ body, quoteChar c = '\\' :: body ∧ ∀ r, escape (body ++ r) = ⟨.char c, body, r⟩ := by
  unfold quoteChar
  split
  · next hc =>
    subst hc
    exact .inr ⟨_, rfl, fun r => rfl⟩
  split
  · next hc =>
    subst hc
    exact .inr ⟨_, rfl, fun r => rfl⟩
  split
  · next hc =>
    subst hc
    exact .inr ⟨_, rfl, fun r => rfl⟩
  split
  · next hc =>
    subst hc
    exact .inr ⟨_, rfl, fun r => rfl⟩
  split
  · next hc =>
    subst hc
    exact .inr ⟨_, rfl, fun r => rfl⟩
  split
  · next hc =>
    refine .inr ⟨_, rfl, fun r => ?_⟩
    rw [hc]
    exact @escape_hex ['2', '0', '2', '8'] r rfl (by decide) _ (by decide)
  split
  · next hc =>
    refine .inr ⟨_, rfl, fun r => ?_⟩
    rw [hc]
    exact @escape_hex ['2', '0', '2', '9'] r rfl (by decide) _ (by decide)
  split
  · next hc =>
    obtain ⟨hhex, hcode⟩ := control_code _ hc
    rw [Char.ofNat_toNat] at hcode
    exact .inr ⟨_, rfl, fun r => escape_hex rfl hhex hcode⟩
  · next hquote hslash hbreak _ _ _ _ _ => exact .inl ⟨rfl, hquote, hbreak, hslash⟩

theorem unescapes_quoteChar (cs : List Char) : Unescapes '"' (cs.flatMap quoteChar) cs := by
  induction cs with
  | nil => exact .nil
  | cons c cs ih =>
    rw [List.flatMap_cons]
    rcases quoteChar_cases c with ⟨h, hquote, hbreak, hslash⟩ | ⟨body, h, hescape⟩
    · rw [h]
      exact .plain hquote hbreak hslash ih
    · rw [h]
      exact .escape hescape ih

/-- A quoted string is cut off as that string and up to where it ends, with nothing noted on the way. -/
theorem next_of_unescapes {t : Scanner} {quote : Char} {body ds rest : List Char}
    (h : Unescapes quote body ds) (hquote : quote = '"' ∨ quote = '\'')
    (ht : t.rest = quote :: (body ++ quote :: rest)) :
    t.next .script =
      (⟨.string (String.ofList ds),
          .ofOffsets t.offset (t.offset + byteLength (quote :: (body ++ [quote])))⟩,
        t.advance (quote :: (body ++ [quote])) rest) := by
  have hplain : isSpace quote = false ∧ quote ≠ '/' ∧ quote ≠ '\\' ∧ isNameStart quote = false ∧
      quote.isDigit = false ∧ quote.utf8Size = 1 := by
    rcases hquote with rfl | rfl <;> decide
  obtain ⟨hspace, hslash, hback, hname, hdigit, hsize⟩ := hplain
  have hskip := skipTrivia_of_cons ht hspace (.inl hslash)
  rw [next_script, nextToken_of_cons ht hskip, if_neg (by simp [hname]), if_neg (by simp [hdigit]),
    if_pos (by simpa using hquote), if_pos rfl, scriptString_of_unescapes h hback]
  simp [quoted, emit, advance, hsize, Nat.add_assoc]

theorem next_quoteString {t : Scanner} {s : String} {rest : List Char}
    (ht : t.rest = (quoteString s).toList ++ rest) :
    t.next .script =
      (⟨.string s, .ofOffsets t.offset (t.offset + byteLength (quoteString s).toList)⟩,
        t.advance (quoteString s).toList rest) := by
  have hchars : (quoteString s).toList = '"' :: (s.toList.flatMap quoteChar ++ ['"']) := by
    simp [quoteString]
  have hsplit : t.rest = '"' :: (s.toList.flatMap quoteChar ++ '"' :: rest) := by
    rw [ht, hchars]
    simp
  rw [next_of_unescapes (unescapes_quoteChar _) (.inl rfl) hsplit, String.ofList_toList, hchars]

theorem begins_string (s : String) (rest : List Char) :
    Begins .script ((quoteString s).toList ++ rest) (.string s) rest := by
  intro t ht
  rw [next_quoteString ht]
  exact ⟨rfl, rfl, rfl, rfl, rfl⟩

theorem begins_tagString {s : String} (h : IsQuotable s) (rest : List Char) :
    Begins .tag ((quoteAttribute s).toList ++ rest) (.string s) rest := by
  obtain ⟨quote, hq, hchars, hno⟩ : ∃ quote, (quote = '"' ∨ quote = '\'') ∧
      (quoteAttribute s).toList ++ rest = quote :: (s.toList ++ quote :: rest) ∧
        quote ∉ s.toList := by
    unfold quoteAttribute
    split
    · next hmem => exact ⟨'\'', .inr rfl, by simp, h.resolve_left fun hno => hno hmem⟩
    · next hno => exact ⟨'"', .inl rfl, by simp, hno⟩
  intro t ht
  rw [hchars] at ht
  have hplain : isSpace quote = false ∧ quote ≠ '/' ∧ isNameStart quote = false := by
    rcases hq with rfl | rfl <;> decide
  have hcut : cutWhile (· != quote) (s.toList ++ quote :: rest) = ⟨s.toList, quote :: rest⟩ := by
    refine cutWhile_stop (fun c hc => ?_) (by simp)
    have : c ≠ quote := fun heq => hno (heq ▸ hc)
    simpa using this
  have hstring : tagString quote t.offset (s.toList ++ quote :: rest) (t.offset + 1) =
      ⟨s.toList, rest, t.offset + 1 + byteLength s.toList + 1, []⟩ := by
    simp only [tagString, hcut]
  have hskip := skipTrivia_of_cons ht hplain.1 (.inl hplain.2.1)
  rw [next_tag, nextToken_of_cons ht hskip, if_neg (by simp [hplain]), if_neg (by simp),
    if_pos (by simpa using hq), if_neg (by decide), hstring]
  refine ⟨?_, rfl, ?_, rfl, rfl⟩
  · simp [quoted, emit]
  · simp [quoted, emit]

end Scanner
end BranchMarkup
