import Mathlib
import BranchMarkup.Number.Read
/-! Whole numbers that are doubles. Such a number has one full mantissa and one exponent, and reading
it as a decimal rounds nothing away: the zeros that its mantissa is extended by are shifted out
again. -/
namespace BranchMarkup.Number

open Float.Model (Format totalExponent UnpackedFloat)
open Float.Model.UnpackedFloat

structure IsNormal (m : Nat) (e : Int) : Prop where
  le_mantissa : 2 ^ 52 ≤ m
  mantissa_lt : m < 2 ^ 53
  le_exponent : -1074 ≤ e
  exponent_le : e ≤ 971

namespace IsNormal

variable {m : Nat} {e : Int} (h : IsNormal m e)
include h

theorem pos : 0 < m := Nat.lt_of_lt_of_le (by decide) h.le_mantissa

theorem log2_mul (k : Nat) : (m * 2 ^ k).log2 = 52 + k := by
  have hpos := Nat.mul_pos h.pos (Nat.two_pow_pos k)
  refine (Nat.log2_eq_iff (Nat.ne_of_gt hpos)).2 ⟨?_, ?_⟩
  · rw [Nat.pow_add]
    exact Nat.mul_le_mul_right _ h.le_mantissa
  · have hexp : 52 + k + 1 = 53 + k := by omega
    rw [hexp, Nat.pow_add]
    exact Nat.mul_lt_mul_of_pos_right h.mantissa_lt (Nat.two_pow_pos k)

theorem targetExponent (k : Nat) :
    Format.binary64.targetExponent (totalExponent (m * 2 ^ k) (e - k)) = e := by
  have hle := h.le_exponent
  simp only [Format.targetExponent, totalExponent, h.log2_mul, Format.mantissaBits,
    Format.minExponent]
  omega

end IsNormal

theorem shiftRight_scaled (m k : Nat) :
    ExtendedMantissa.ofMantissaAndAccuracy (m * 2 ^ k) .exact >>> k =
      ExtendedMantissa.ofMantissaAndAccuracy m .exact := by
  induction k generalizing m with
  | zero => rw [Nat.pow_zero, Nat.mul_one]; rfl
  | succ k ih =>
    have hstep (x : ExtendedMantissa) : x >>> (k + 1) = (x >>> k).shiftRightOne := rfl
    have hsplit : m * 2 ^ (k + 1) = m * 2 * 2 ^ k := by
      rw [Nat.pow_succ, Nat.mul_comm (2 ^ k), Nat.mul_assoc]
    rw [hstep, hsplit, ih]
    simp [ExtendedMantissa.ofMantissaAndAccuracy, ExtendedMantissa.shiftRightOne]

namespace IsNormal

variable {m : Nat} {e : Int} (h : IsNormal m e)
include h

theorem shiftToTargetExponent (k : Nat) :
    shiftToTargetExponent .binary64 (m * 2 ^ k) (e - k) .exact =
      (.ofMantissaAndAccuracy m .exact, e) := by
  have hshift : (e - (e - (k : Int))).toNat = k := by omega
  have hexp : e - (k : Int) + k = e := by omega
  simp only [UnpackedFloat.shiftToTargetExponent, h.targetExponent, shiftToExponent, hshift,
    shiftRight_scaled, hexp]

/-- Rounding takes nothing from a full mantissa that zeros were appended to. -/
theorem roundWithAccuracy (sign : Sign) (k : Nat) :
    roundWithAccuracy .binary64 sign (m * 2 ^ k) (e - k) .exact = .finite sign m e h.pos := by
  have hfull := h.shiftToTargetExponent 0
  rw [Nat.pow_zero, Nat.mul_one, Int.natCast_zero, Int.sub_zero] at hfull
  have hrounded : (ExtendedMantissa.ofMantissaAndAccuracy m .exact).roundedMantissa = m := rfl
  have hmantissa : (ExtendedMantissa.ofMantissaAndAccuracy m .exact).mantissa = m := rfl
  simp only [UnpackedFloat.roundWithAccuracy, h.shiftToTargetExponent k, hrounded, hfull, hmantissa,
    Nat.ne_of_gt h.pos, ↓reduceDIte]

end IsNormal

/-! The words of a double -/

theorem unpackSign_packComponents (sign : Sign) (exponent : BitVec 11) (mantissa : BitVec 52) :
    unpackSign (packComponents .binary64 sign exponent mantissa) = sign.toBitVec := by
  change (sign.toBitVec ++ exponent ++ mantissa).extractLsb' 63 1 = sign.toBitVec
  rw [BitVec.extractLsb'_append_eq_of_le (by decide), BitVec.extractLsb'_append_eq_of_le (by decide)]
  cases sign <;> rfl

theorem ofBitVec_toBitVec (sign : Sign) : Sign.ofBitVec sign.toBitVec = sign := by
  cases sign <;> rfl

theorem toNat_append_one (bits : BitVec 52) : (1#1 ++ bits).toNat = 2 ^ 52 + bits.toNat := by
  rw [BitVec.toNat_append, ← Nat.shiftLeft_add_eq_or_of_lt bits.isLt]
  rfl

/-- The exponent is stored with 1075 added. -/
theorem IsNormal.pack_eq {m : Nat} {e : Int} (h : IsNormal m e) (sign : Sign) :
    UnpackedFloat.pack .binary64 (.finite sign m e h.pos) =
      packComponents .binary64 sign (BitVec.ofNat 11 (e + 1075).toNat) (BitVec.ofNat 52 m) := by
  obtain ⟨hlow, hhigh, hmin, hmax⟩ := id h
  have hlog : m.log2 = 52 := (Nat.log2_eq_iff (Nat.ne_of_gt h.pos)).2 ⟨hlow, hhigh⟩
  have hbias : e + (Format.binary64.exponentBias : Int) +
      (Format.binary64.mantissaBitsWithoutImplicit : Int) = e + 1075 := by
    change e + 1023 + 52 = e + 1075
    omega
  have hfits : ¬ 2 ^ Format.binary64.exponentBits ≤ (e + 1075).toNat + 1 := by
    change ¬ 2048 ≤ (e + 1075).toNat + 1
    omega
  simp only [UnpackedFloat.pack, hbias, if_neg hfits, hlog]
  rfl

theorem IsNormal.unpack_pack {m : Nat} {e : Int} (h : IsNormal m e) (sign : Sign) :
    unpack (.ofModel (.pack (.finite sign m e h.pos))) = .finite sign m e h.pos := by
  obtain ⟨hlow, hhigh, hmin, hmax⟩ := id h
  have hbiased : (BitVec.ofNat 11 (e + 1075).toNat).toNat = (e + 1075).toNat := by
    rw [BitVec.toNat_ofNat]
    omega
  have hones : BitVec.ofNat 11 (e + 1075).toNat ≠ -1#11 := by
    intro heq
    have hval : (e + 1075).toNat = 2047 := by rw [← hbiased, heq]; rfl
    omega
  have hzero : BitVec.ofNat 11 (e + 1075).toNat ≠ 0#11 := by
    intro heq
    have hval : (e + 1075).toNat = 0 := by rw [← hbiased, heq]; rfl
    omega
  have hmantissa : (1#1 ++ BitVec.ofNat 52 m).toNat = m := by
    rw [toNat_append_one, BitVec.toNat_ofNat]
    omega
  have hexp : ((BitVec.ofNat 11 (e + 1075).toNat).toNat : Int) -
      ((Format.binary64.exponentBias : Int) + (52 : Nat)) = e := by
    rw [hbiased]
    change ((e + 1075).toNat : Int) - (1023 + 52) = e
    omega
  change UnpackedFloat.unpack .binary64 (UnpackedFloat.pack .binary64 _) = _
  simp only [h.pack_eq, UnpackedFloat.unpack, unpackMantissa_packComponents,
    unpackExponent_packComponents, unpackSign_packComponents, ofBitVec_toBitVec, if_neg hones,
    if_neg hzero, hmantissa, hexp]

/-- What is stored as a finite number has a full mantissa, or the least exponent. -/
theorem bounds_of_unpack {x : Float} {sign : Sign} {m : Nat} {e : Int} {hm : 0 < m}
    (h : unpack x = .finite sign m e hm) : m < 2 ^ 53 ∧ (IsNormal m e ∨ e = -1074) := by
  have hbias : (Format.binary64.exponentBias : Int) +
      (Format.binary64.mantissaBitsWithoutImplicit : Int) = 1075 := rfl
  have hbits : (@unpackMantissa .binary64 x.toModel.toBits.toBitVec).toNat < 2 ^ 52 := BitVec.isLt _
  have hlimit : (@unpackExponent .binary64 x.toModel.toBits.toBitVec).toNat < 2 ^ 11 := BitVec.isLt _
  change UnpackedFloat.unpack .binary64 _ = _ at h
  simp only [UnpackedFloat.unpack, hbias] at h
  split at h
  · split at h <;> cases h
  next hones =>
    have hfinite : (@unpackExponent .binary64 x.toModel.toBits.toBitVec).toNat ≠ 2047 :=
      fun heq => hones (BitVec.eq_of_toNat_eq heq)
    split at h
    next hzero =>
      split at h
      · cases h
      · cases h
        rw [hzero]
        exact ⟨Nat.lt_trans hbits (by decide), .inr rfl⟩
    next hzero =>
      have hpos : (@unpackExponent .binary64 x.toModel.toBits.toBitVec).toNat ≠ 0 :=
        fun heq => hzero (BitVec.eq_of_toNat_eq heq)
      obtain ⟨-, rfl, rfl⟩ := UnpackedFloat.finite.inj h
      rw [toNat_append_one]
      exact ⟨by omega, .inl ⟨by omega, by omega, by omega, by omega⟩⟩

/-! Whole numbers -/

theorem natAbs_apply (sign : Sign) (n : Nat) : (sign.apply n).natAbs = n := by
  cases sign
  · exact Int.natAbs_neg n
  · rfl

theorem isNormal_of_toInt? {x : Float} {sign : Sign} {m : Nat} {e k : Int} {hm : 0 < m}
    (h : unpack x = .finite sign m e hm) (hk : toInt? x = some k) :
    IsNormal m e ∧ k.natAbs * 2 ^ 53 = m * 2 ^ (e + 53).toNat ∧ -53 ≤ e ∧
      k = sign.apply k.natAbs := by
  obtain ⟨hlt, hnormal⟩ := bounds_of_unpack h
  simp only [toInt?, h] at hk
  split at hk
  next he =>
    have hk := (Option.some.inj hk).symm
    have habs : k.natAbs = m * 2 ^ e.toNat := by rw [hk, natAbs_apply]; rfl
    have hexp : (e + 53).toNat = e.toNat + 53 := by omega
    refine ⟨hnormal.resolve_right (by omega), ?_, by omega, ?_⟩
    · rw [habs, hexp, Nat.pow_add, Nat.mul_assoc]
    · rw [habs]
      exact hk
  next he =>
    split at hk
    next hdvd =>
      have hk := (Option.some.inj hk).symm
      have hdvd : 2 ^ (-e).toNat ∣ m := Nat.dvd_of_mod_eq_zero hdvd
      have habs : k.natAbs = m / 2 ^ (-e).toNat := by rw [hk, natAbs_apply]; rfl
      have hsmall : (-e).toNat < 53 :=
        (Nat.pow_lt_pow_iff_right (by decide)).1 (Nat.lt_of_le_of_lt (Nat.le_of_dvd hm hdvd) hlt)
      have hpow : 2 ^ 53 = 2 ^ (-e).toNat * 2 ^ (e + 53).toNat := by
        rw [← Nat.pow_add]
        congr 1
        omega
      refine ⟨hnormal.resolve_right (by omega), ?_, by omega, ?_⟩
      · rw [habs, hpow, ← Nat.mul_assoc, Nat.div_mul_cancel hdvd]
      · rw [habs]
        exact hk
    · cases hk

/-- Reading a whole number gives the double that it is. -/
theorem unpack_ofScientific {x : Float} {sign : Sign} {m : Nat} {e k : Int} {hm : 0 < m}
    (h : unpack x = .finite sign m e hm) (hk : toInt? x = some k) :
    unpack (.ofModel (.ofScientific k.natAbs 0)) = .finite .positive m e hm := by
  obtain ⟨hnormal, hmantissa, hlow, -⟩ := isNormal_of_toInt? h hk
  have hne : k.natAbs ≠ 0 := by
    intro hzero
    rw [hzero, Nat.zero_mul] at hmantissa
    exact Nat.ne_of_lt (Nat.mul_pos hm (Nat.two_pow_pos _)) hmantissa
  have hexp : (-53 : Int) = e - (e + 53).toNat := by omega
  have hround : UnpackedFloat.ofScientific .binary64 k.natAbs 0 = .finite .positive m e hm := by
    have hlimit : ¬ (0 : Int) > 2 ^ Format.binary64.exponentBits := by decide
    have hfloor : ¬ (0 : Int) < -(2 ^ Format.binary64.exponentBits + k.natAbs.log2) := by
      have hbits : (0 : Int) ≤ 2 ^ Format.binary64.exponentBits := by decide
      omega
    rw [UnpackedFloat.ofScientific, dif_neg hne, if_neg hlimit, if_neg hfloor, if_pos (Int.le_refl 0)]
    change UnpackedFloat.roundWithAccuracy .binary64 .positive (k.natAbs <<< 53 * 1) (-53 + 0) .exact = _
    rw [Nat.shiftLeft_eq, Nat.mul_one, Int.add_zero, hmantissa, hexp]
    exact hnormal.roundWithAccuracy .positive _
  change unpack (.ofModel (.pack (UnpackedFloat.ofScientific .binary64 k.natAbs 0))) = _
  rw [hround]
  exact hnormal.unpack_pack .positive

theorem toInt?_congr {x y : Float} (h : unpack x = unpack y) : toInt? x = toInt? y := by
  unfold toInt?
  rw [h]

theorem unpack_of_toInt? {x : Float} {k : Int} (h : toInt? x = some k) :
    (k = 0 ∧ ∃ sign, unpack x = .zero sign) ∨
      k ≠ 0 ∧ ∃ sign m e hm, unpack x = .finite sign m e hm := by
  cases hx : unpack x with
  | notANumber | infinity => simp [toInt?, hx] at h
  | zero sign =>
    simp only [toInt?, hx] at h
    exact .inl ⟨(Option.some.inj h).symm, sign, rfl⟩
  | finite sign m e hm =>
    refine .inr ⟨?_, sign, m, e, hm, rfl⟩
    rintro rfl
    obtain ⟨-, hmantissa, -⟩ := isNormal_of_toInt? hx h
    rw [Int.natAbs_zero, Nat.zero_mul] at hmantissa
    exact Nat.ne_of_lt (Nat.mul_pos hm (Nat.two_pow_pos _)) hmantissa

theorem compare_finite_eq {s t : Sign} {m n : Nat} {e f : Int} {hm : 0 < m} {hn : 0 < n} :
    (UnpackedFloat.finite s m e hm).compare (.finite t n f hn) = some .eq ↔
      s = t ∧ e = f ∧ m = n := by
  cases s <;> cases t <;>
    simp [UnpackedFloat.compare, Ordering.then_eq_eq, Ordering.swap_eq_eq]

theorem beq_iff_of_toInt? {x y : Float} {k l : Int} (hx : toInt? x = some k)
    (hy : toInt? y = some l) : (x == y) = true ↔ k = l := by
  change ((unpack x).compare (unpack y) == some .eq) = true ↔ k = l
  rw [beq_iff_eq]
  obtain ⟨rfl, sign, hux⟩ | ⟨hk, s, m, e, hm, hux⟩ := unpack_of_toInt? hx
  · obtain ⟨rfl, sign', huy⟩ | ⟨hl, t, n, f, hn, huy⟩ := unpack_of_toInt? hy
    · simp [hux, huy, UnpackedFloat.compare]
    · rw [hux, huy]
      cases t <;> simp [UnpackedFloat.compare, hl.symm]
  · obtain ⟨rfl, sign', huy⟩ | ⟨hl, t, n, f, hn, huy⟩ := unpack_of_toInt? hy
    · rw [hux, huy]
      cases s <;> simp [UnpackedFloat.compare, hk]
    · rw [hux, huy, compare_finite_eq]
      constructor
      · rintro ⟨rfl, rfl, rfl⟩
        rw [toInt?_congr (hux.trans huy.symm), hy] at hx
        exact (Option.some.inj hx).symm
      · rintro rfl
        have hread := (unpack_ofScientific hux hx).symm.trans (unpack_ofScientific huy hy)
        obtain ⟨-, rfl, rfl⟩ := UnpackedFloat.finite.inj hread
        refine ⟨?_, rfl, rfl⟩
        have hs := (isNormal_of_toInt? hux hx).2.2.2
        have ht := (isNormal_of_toInt? huy hy).2.2.2
        cases s <;> cases t <;> simp only [Sign.apply] at hs ht <;> first | rfl | omega

end BranchMarkup.Number
