import Mathlib
import BranchMarkup.Proofs.Number.Exact
import BranchMarkup.Value
/-! The text of a whole number, and what it is read as. It is written through the integers of 64
bits, so up to these it is the number's own digits, and beyond them those of the nearest end. -/
namespace BranchMarkup

theorem Text.not_isBlank_of_isDigit {c : Char} (h : c.isDigit = true) : Text.isBlank c = false := by
  simp only [Char.isDigit, ge_iff_le, Bool.and_eq_true, decide_eq_true_eq, UInt32.le_iff_toNat_le] at h
  have hlow : 48 ≤ c.toNat := h.1
  have hhigh : c.toNat ≤ 57 := h.2
  simp only [isBlank, inRanges, blankRanges, List.any_cons, List.any_nil, Bool.or_false,
    Bool.or_eq_false_iff, Bool.and_eq_false_iff, decide_eq_false_iff_not]
  omega

namespace Number

open Float.Model (UnpackedFloat)
open Float.Model.UnpackedFloat (Sign)

/-! Digits -/

theorem isDigit_of_mem_toDigits {n : Nat} : ∀ c ∈ Nat.toDigits 10 n, c.isDigit = true :=
  fun _ h => Nat.isDigit_of_mem_toDigits (by decide) (by decide) h

theorem toList_toString (k : Int) : (toString k).toList =
    if 0 ≤ k then Nat.toDigits 10 k.natAbs else '-' :: Nat.toDigits 10 k.natAbs := by
  rw [Int.toString_eq_repr, Int.repr_eq_if]
  split
  next h =>
    have habs : k.toNat = k.natAbs := by omega
    rw [Nat.toList_repr, habs]
  next h =>
    have habs : (-k).toNat = k.natAbs := by omega
    rw [String.toList_append, Nat.toList_repr, habs]
    rfl

theorem trim_toString (k : Int) : Text.trim (toString k).toList = (toString k).toList := by
  have hblank {ds : List Char} {n : Nat} (h : ∀ c ∈ ds, c = '-' ∨ c ∈ Nat.toDigits 10 n) :
      ∀ c ∈ ds, Text.isBlank c = false := by
    intro c hc
    rcases h c hc with rfl | hc
    · decide
    · exact Text.not_isBlank_of_isDigit (isDigit_of_mem_toDigits c hc)
  have hall : ∀ c ∈ (toString k).toList, Text.isBlank c = false := by
    apply hblank (n := k.natAbs)
    rw [toList_toString]
    split
    · exact fun c hc => .inr hc
    · exact fun c hc => List.mem_cons.1 hc
  exact Text.trim_eq_self (fun c hc => hall c (List.mem_of_mem_head? hc))
    fun c hc => hall c (List.mem_of_mem_getLast? hc)

/-! Reading digits -/

theorem decimal?_digits {ds : List Char} (hds : ∀ c ∈ ds, c.isDigit = true) (hne : ds ≠ []) :
    decimal? ds = some (natOfDigits ds, 0) := by
  have htake : ds.takeWhile Char.isDigit = ds := List.takeWhile_eq_self_iff.2 hds
  have hdrop : ds.dropWhile Char.isDigit = [] := List.dropWhile_eq_nil_iff.2 hds
  simp [decimal?, htake, hdrop, hne]

theorem toLower_of_isDigit {c : Char} (h : c.isDigit = true) : c.toLower = c := by
  simp only [Char.isDigit, ge_iff_le, Bool.and_eq_true, decide_eq_true_eq, UInt32.le_iff_toNat_le] at h
  have hhigh : c.val.toNat ≤ 57 := h.2
  refine dif_neg fun hupper => ?_
  have hlow : 65 ≤ c.val.toNat := UInt32.le_iff_toNat_le.1 hupper.1
  omega

theorem magnitude?_toDigits (n : Nat) :
    magnitude? (Nat.toDigits 10 n) = some (.ofModel (.ofScientific n 0)) := by
  have hvalue : natOfDigits (Nat.toDigits 10 n) = n :=
    Nat.ofDigitChars_toDigits (by decide) (by decide)
  have hlower : (Nat.toDigits 10 n).map Char.toLower = Nat.toDigits 10 n :=
    (List.map_congr_left fun c hc => toLower_of_isDigit (isDigit_of_mem_toDigits c hc)).trans
      (List.map_id' _)
  have hname {name : String} (h : name.toList.all Char.isDigit = false) :
      String.ofList (Nat.toDigits 10 n) ≠ name := by
    rintro rfl
    rw [String.toList_ofList, List.all_eq_false] at h
    obtain ⟨c, hc, hdigit⟩ := h
    exact hdigit (isDigit_of_mem_toDigits c hc)
  have hdecimal := decimal?_digits (isDigit_of_mem_toDigits (n := n)) Nat.toDigits_ne_nil
  simp only [magnitude?, hlower, hdecimal, hvalue, hname (show "inf".toList.all _ = false by decide),
    hname (show "infinity".toList.all _ = false by decide),
    hname (show "nan".toList.all _ = false by decide), Option.map_some]
  rfl

theorem takeSign_digits {ds : List Char} (hds : ∀ c ∈ ds, c.isDigit = true) :
    takeSign ds = (.positive, ds) := by
  cases ds with
  | nil => rfl
  | cons d ds =>
    have hd := hds d List.mem_cons_self
    unfold takeSign
    split
    next h =>
      cases h
      cases hd
    next h =>
      cases h
      cases hd
    · rfl

theorem read?_toString (k : Int) : read? (toString k).toList =
    some (if 0 ≤ k then .ofModel (.ofScientific k.natAbs 0)
      else -.ofModel (.ofScientific k.natAbs 0)) := by
  rw [toList_toString]
  split
  next h =>
    rw [read?, takeSign_digits isDigit_of_mem_toDigits]
    exact magnitude?_toDigits _
  next h => simp only [read?, takeSign, magnitude?_toDigits, Option.map_some]

theorem numberOfText_toString (k : Int) : Value.numberOfText (toString k) =
    if 0 ≤ k then .ofModel (.ofScientific k.natAbs 0)
    else -.ofModel (.ofScientific k.natAbs 0) := by
  rw [Value.numberOfText, trim_toString]
  split
  next h =>
    rw [toList_toString] at h
    split at h
    · exact absurd h Nat.toDigits_ne_nil
    · cases h
  next h => rw [read?_toString, Option.getD_some]

theorem toInt?_numberOfText {x : Float} {k : Int} (hk : toInt? x = some k) :
    toInt? (Value.numberOfText (toString k)) = some k := by
  rw [numberOfText_toString]
  obtain ⟨rfl, -⟩ | ⟨hne, sign, m, e, hm, hx⟩ := unpack_of_toInt? hk
  · decide +kernel
  · obtain ⟨hnormal, -, -, hsign⟩ := isNormal_of_toInt? hx hk
    have hread := unpack_ofScientific hx hk
    cases sign with
    | positive =>
      have hpos : 0 ≤ k := hsign ▸ Int.natCast_nonneg k.natAbs
      rw [if_pos hpos, toInt?_congr (hread.trans hx.symm), hk]
    | negative =>
      have hneg : ¬ 0 ≤ k := by
        simp only [Sign.apply] at hsign
        omega
      have hminus : unpack (-.ofModel (.ofScientific k.natAbs 0)) = .finite .negative m e hm := by
        change unpack (.ofModel (.pack (unpack (.ofModel (.ofScientific k.natAbs 0))).neg)) = _
        rw [hread]
        exact hnormal.unpack_pack .negative
      rw [if_neg hneg, toInt?_congr (hminus.trans hx.symm), hk]

/-! The way through 64 bits -/

theorem clampInt64_eq_self {k : Int} : clampInt64 k = k ↔ -2 ^ 63 ≤ k ∧ k < 2 ^ 63 := by
  have htwo : (twoTo 63 : Int) = 2 ^ 63 := rfl
  rw [clampInt64, htwo]
  omega

theorem text_of_toInt? {x : Float} {k : Int} (hx : toInt? x = some k) (hk : k.natAbs < 10 ^ 21) :
    text x = toString (clampInt64 k) := by
  obtain ⟨rfl, sign, hzero⟩ | ⟨-, sign, m, e, hm, hfinite⟩ := unpack_of_toInt? hx
  · rw [text, hzero]
    rfl
  · rw [text, hfinite, hx]
    exact if_pos hk

/-- What is read back is the number itself, or that end of the range beyond which it lies; the upper
end is no double, and the one that it is read as is the next number. -/
theorem toInt?_numberOfText_clampInt64 {x : Float} {k : Int} (hx : toInt? x = some k) :
    toInt? (Value.numberOfText (toString (clampInt64 k))) = some (max (-2 ^ 63) (min (2 ^ 63) k)) := by
  have htwo : (twoTo 63 : Int) = 2 ^ 63 := rfl
  by_cases hlow : k < -2 ^ 63
  · have hclamp : clampInt64 k = -2 ^ 63 := by
      rw [clampInt64, htwo]
      omega
    have hmax : max (-2 ^ 63) (min (2 ^ 63) k) = -2 ^ 63 := by omega
    rw [hclamp, hmax, numberOfText_toString]
    decide +kernel
  by_cases hhigh : k < 2 ^ 63
  · have hmax : max (-2 ^ 63) (min (2 ^ 63) k) = k := by omega
    rw [clampInt64_eq_self.2 ⟨Int.not_lt.1 hlow, hhigh⟩, hmax, toInt?_numberOfText hx]
  · have hclamp : clampInt64 k = 2 ^ 63 - 1 := by
      rw [clampInt64, htwo]
      omega
    have hmax : max (-2 ^ 63) (min (2 ^ 63) k) = 2 ^ 63 := by omega
    rw [hclamp, hmax, numberOfText_toString]
    decide +kernel

end Number

namespace Value

open Number (toInt? clampInt64)

theorem looseEq_string_number (s : String) (x : Float) :
    (string s).looseEq (number x) = (numberOfText s == x) := rfl

/-- A whole number is written in its own digits exactly if it is an integer of 64 bits. Its text is
read as the number again, and is loosely equal to it, exactly if it is such an integer or the one
after the last of them. -/
theorem text_of_whole_number {x : Float} {k : Int} (hx : toInt? x = some k)
    (hk : k.natAbs < 10 ^ 21) :
    (number x).shown = toString (clampInt64 k) ∧
      ((number x).shown = toString k ↔ -2 ^ 63 ≤ k ∧ k < 2 ^ 63) ∧
      (toInt? (string (number x).shown).toNumber = some k ↔ -2 ^ 63 ≤ k ∧ k ≤ 2 ^ 63) ∧
      ((string (number x).shown).looseEq (number x) = true ↔ -2 ^ 63 ≤ k ∧ k ≤ 2 ^ 63) := by
  have htext : (number x).shown = toString (clampInt64 k) := Number.text_of_toInt? hx hk
  have hread : toInt? (numberOfText (toString (clampInt64 k))) = _ :=
    Number.toInt?_numberOfText_clampInt64 hx
  have hrange : max (-2 ^ 63) (min (2 ^ 63) k) = k ↔ -2 ^ 63 ≤ k ∧ k ≤ 2 ^ 63 := by omega
  refine ⟨htext, ?_, ?_, ?_⟩
  · rw [htext, Int.toString_eq_repr, Int.toString_eq_repr, Int.repr_inj, Number.clampInt64_eq_self]
  · rw [htext, ← hrange]
    change toInt? (numberOfText _) = _ ↔ _
    rw [hread, Option.some_inj]
  · rw [htext, looseEq_string_number, Number.beq_iff_of_toInt? hread hx, hrange]

def bigSample : Float := .ofModel (.ofScientific (2 ^ 64) 0)

theorem text_of_whole_number_big : toInt? bigSample = some (2 ^ 64) ∧ (2 ^ 64 : Int).natAbs < 10 ^ 21 ∧
    (number bigSample).shown = "9223372036854775807" ∧
    toInt? (string (number bigSample).shown).toNumber ≠ some (2 ^ 64) ∧
    (string (number bigSample).shown).looseEq (number bigSample) = false := by
  have hx : toInt? bigSample = some (2 ^ 64) := by decide +kernel
  have hk : (2 ^ 64 : Int).natAbs < 10 ^ 21 := by decide
  obtain ⟨htext, -, hread, heq⟩ := text_of_whole_number hx hk
  refine ⟨hx, hk, htext.trans (by decide), fun h => absurd (hread.1 h) (by decide), ?_⟩
  exact Bool.eq_false_iff.2 fun h => absurd (heq.1 h) (by decide)

end Value
end BranchMarkup
