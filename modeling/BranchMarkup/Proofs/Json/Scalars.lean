import BranchMarkup.Json.Read
/-! Strings and numbers as they are written are read back. -/
namespace BranchMarkup.Json

/-! Strings -/

theorem readText_plain {c : Char} (hquote : c ≠ '"') (hslash : c ≠ '\\')
    (hcontrol : ¬ c.toNat < 0x20) (cs : List Char) :
    readText (c :: cs) = push c (readText cs) := by
  rw [readText.eq_7 c cs (by simp [hslash]) hquote (by simp [hslash]) (by simp [hslash])
    (by simp [hslash])]
  exact if_neg hcontrol

theorem readText_escaped {c e : Char} (h : escaped? c = some e) (hu : c ≠ 'u') (cs : List Char) :
    readText ('\\' :: c :: cs) = push e (readText cs) := by
  rw [readText.eq_6 c cs (by simp [hu]) hu, h]

theorem readText_unit {a b c d : Char} {unit : Nat} (h : hexUnit? a b c d = some unit)
    (hlow : unit < 0xD800) (cs : List Char) :
    readText ('\\' :: 'u' :: a :: b :: c :: d :: cs) = push (Char.ofNat unit) (readText cs) := by
  have htrailing : isTrailing unit = false := by
    simp only [isTrailing, Bool.and_eq_false_iff, decide_eq_false_iff_not]
    omega
  have hleading : isLeading unit = false := by
    simp only [isLeading, Bool.and_eq_false_iff, decide_eq_false_iff_not]
    omega
  rw [readText.eq_def]
  simp only [h, htrailing, hleading, Bool.false_eq_true, ↓reduceIte]

/-- A control character is written by its code. -/
theorem hexUnit?_hexDigit {n : Nat} (h : n < 0x20) :
    hexUnit? '0' '0' (hexDigit (n / 16)) (hexDigit (n % 16)) = some n := by
  revert n
  decide

theorem readText_escapeChar (c : Char) (cs : List Char) :
    readText (escapeChar c ++ cs) = push c (readText cs) := by
  unfold escapeChar
  split
  · next hc => rw [hc]; exact readText_escaped rfl (by decide) cs
  split
  · next hc => rw [hc]; exact readText_escaped rfl (by decide) cs
  split
  · next hc => rw [hc]; exact readText_escaped rfl (by decide) cs
  split
  · next hc => rw [hc]; exact readText_escaped rfl (by decide) cs
  split
  · next hc => rw [hc]; exact readText_escaped rfl (by decide) cs
  split
  · next hc => rw [hc]; exact readText_escaped rfl (by decide) cs
  split
  · next hc => rw [hc]; exact readText_escaped rfl (by decide) cs
  split
  · next hcontrol =>
    have hunit := readText_unit (hexUnit?_hexDigit hcontrol) (by omega) cs
    rwa [Char.ofNat_toNat] at hunit
  · next hquote hslash _ _ _ _ _ hcontrol => exact readText_plain hquote hslash hcontrol cs

theorem readText_quoted (s rest : List Char) :
    readText (s.flatMap escapeChar ++ '"' :: rest) = .ok (s, rest) := by
  induction s with
  | nil => rfl
  | cons c s ih =>
    rw [List.flatMap_cons, List.append_assoc, readText_escapeChar, ih]
    rfl

/-! Numbers -/

def EndsNumber (cs : List Char) : Prop :=
  ∀ c ∈ cs.head?, c.isDigit = false ∧ c ≠ '.' ∧ isExponentMark c = false

theorem EndsNumber.startsWithDigit {cs : List Char} (h : EndsNumber cs) :
    startsWithDigit cs = false := by
  cases cs with
  | nil => rfl
  | cons c cs => exact (h c rfl).1

theorem le_ofDigitChars (ds : List Char) (acc : Nat) : acc ≤ Nat.ofDigitChars 10 ds acc := by
  induction ds generalizing acc with
  | nil => exact Nat.le_refl acc
  | cons d ds ih =>
    rw [Nat.ofDigitChars_cons]
    have := ih (10 * acc + (d.toNat - '0'.toNat))
    omega

theorem digitsBelow_append {bound acc : Nat} {ds rest : List Char}
    (hdigits : ∀ d ∈ ds, d.isDigit = true) (hbound : Nat.ofDigitChars 10 ds acc < bound)
    (hrest : startsWithDigit rest = false) :
    digitsBelow bound acc (ds ++ rest) = (Nat.ofDigitChars 10 ds acc, ds.length, rest) := by
  induction ds generalizing acc with
  | nil =>
    cases rest with
    | nil => rfl
    | cons c rest =>
      have hc : c.isDigit = false := hrest
      simp [digitsBelow, hc, Nat.ofDigitChars]
  | cons d ds ih =>
    rw [List.forall_mem_cons] at hdigits
    have hstep : 10 * acc + (d.toNat - '0'.toNat) = acc * 10 + digit d := by
      unfold digit
      omega
    rw [Nat.ofDigitChars_cons, hstep] at hbound ⊢
    have hlt : acc * 10 + digit d < bound :=
      Nat.lt_of_le_of_lt (le_ofDigitChars ds _) hbound
    simp only [List.cons_append, digitsBelow, hdigits.1, hlt, decide_true, Bool.and_self, ↓reduceIte,
      ih hdigits.2 hbound, List.length_cons]

theorem head_toDigits {n : Nat} (hn : 0 < n) : (Nat.toDigits 10 n).head? ≠ some '0' := by
  induction n using Nat.strongRecOn with
  | ind n ih =>
    rw [Nat.toDigits_eq_if (by decide)]
    split
    · next hlt =>
      have : ∀ m < 10, 0 < m → (Nat.digitChar m) ≠ '0' := by decide
      simpa using this n hlt hn
    · next hge =>
      have hq := ih (n / 10) (by omega) (by omega)
      rw [List.head?_append]
      cases hd : (Nat.toDigits 10 (n / 10)).head? with
      | none =>
        rw [List.head?_eq_none_iff] at hd
        have := @Nat.length_toDigits_pos 10 (n / 10)
        simp [hd] at this
      | some c =>
        rw [hd] at hq
        exact hq

theorem readTail_ends {n : Nat} {rest : List Char} (h : EndsNumber rest) :
    readTail false n 0 rest = .ok (.integer n, rest) := by
  cases rest with
  | nil => rfl
  | cons c rest =>
    obtain ⟨-, hdot, hmark⟩ := h c rfl
    unfold readTail
    split
    · next heq =>
      cases heq
      exact absurd rfl hdot
    · simp [hmark, readTail.whole, wholeNumeral]

theorem readNumeral_toDigits {n : Nat} {rest : List Char} (hn : n < Number.twoTo 64)
    (h : EndsNumber rest) :
    readNumeral false (Nat.toDigits 10 n ++ rest) = .ok (.integer n, rest) := by
  have hdigits : ∀ d ∈ Nat.toDigits 10 n, d.isDigit = true :=
    fun d hd => Nat.isDigit_of_mem_toDigits (by decide) (by decide) hd
  have hvalue : Nat.ofDigitChars 10 (Nat.toDigits 10 n) 0 = n :=
    Nat.ofDigitChars_toDigits (by decide) (by decide)
  have hbelow := digitsBelow_append hdigits (by rwa [hvalue]) h.startsWithDigit
  rw [hvalue] at hbelow
  by_cases hzero : n = 0
  · rw [hzero, Nat.toDigits_zero, List.singleton_append, readNumeral, h.startsWithDigit]
    exact readTail_ends h
  · have hhead := head_toDigits (Nat.pos_of_ne_zero hzero)
    cases hds : Nat.toDigits 10 n with
    | nil =>
      have := @Nat.length_toDigits_pos 10 n
      simp [hds] at this
    | cons d ds =>
      rw [hds] at hhead hdigits hbelow
      rw [List.forall_mem_cons] at hdigits
      have hd : d ≠ '0' := fun heq => hhead (by rw [heq]; rfl)
      rw [List.cons_append] at hbelow ⊢
      have htake : rest.takeWhile Char.isDigit = [] ∧ rest.dropWhile Char.isDigit = rest := by
        cases rest with
        | nil => exact ⟨rfl, rfl⟩
        | cons c rest =>
          have hc : c.isDigit = false := h.startsWithDigit
          simp [hc]
      rw [readNumeral.eq_3 false d _ hd, if_pos hdigits.1, hbelow]
      simp only [htake, List.length_nil]
      exact readTail_ends h

theorem readWord_toDigits {bits n : Nat} {rest : List Char} (hbits : bits ≤ 64)
    (hn : n < Number.twoTo bits) (h : EndsNumber rest) :
    readWord bits (Nat.toDigits 10 n ++ rest) = .ok (.number n, rest) := by
  have hwide : n < Number.twoTo 64 := Nat.lt_of_lt_of_le hn (Nat.pow_le_pow_right (by decide) hbits)
  have hread := readNumeral_toDigits hwide h
  cases hds : Nat.toDigits 10 n with
  | nil =>
    have := @Nat.length_toDigits_pos 10 n
    simp [hds] at this
  | cons d ds =>
    have hd : d.isDigit = true :=
      Nat.isDigit_of_mem_toDigits (by decide) (by decide) (hds ▸ List.mem_cons_self)
    have hminus : d ≠ '-' := fun heq => absurd (heq ▸ hd) (by decide)
    rw [hds, List.cons_append] at hread
    rw [List.cons_append, readWord.eq_2 bits _ (by simp [hminus])]
    simp only [startsWithDigit, hd, ↓reduceIte, hread, bind, Except.bind, asWord]
    have hrange : (0 ≤ (n : Int) && (n : Int) < (Number.twoTo bits : Nat)) = true := by
      simpa using hn
    rw [if_pos hrange]
    rfl

end BranchMarkup.Json
