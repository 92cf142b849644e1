import CommandChain.Json.Basic
import Mathlib.Algebra.Ring.Parity
import Mathlib.Tactic.Linarith
import Mathlib.Tactic.Ring

/-!
# Rounding whole numbers

A whole number is rounded to 53 bits (`Double.exists_round`): one with fewer bits gets zeros at its
end and is not changed, and of a longer one the bits behind the first 53 are dropped. `IsRounded`
says what comes out, and how near it is to the number.

Bits are dropped one at a time, and two bits of what was dropped are kept: the last one, and whether
any before it was set. `Describes` is what these two bits say of all that was dropped. -/

namespace CommandChain.Double

open Float.Model (UnpackedFloat Format totalExponent)
open Float.Model.UnpackedFloat

/-! ### Dropping bits -/

/-- The mantissa is `num / den` without its fraction, and the two bits say how the fraction compares
with 0 and with one half. -/
def Describes (num den : Nat) : ExtendedMantissa → Prop
  | ⟨q, false, false⟩ => num = q * den
  | ⟨q, false, true⟩ => q * den < num ∧ 2 * num < (2 * q + 1) * den
  | ⟨q, true, false⟩ => 2 * num = (2 * q + 1) * den
  | ⟨q, true, true⟩ => (2 * q + 1) * den < 2 * num ∧ num < (q + 1) * den

variable {num den : Nat} {em : ExtendedMantissa}

theorem Describes.shiftRightOne (hden : 0 < den) (h : Describes num den em) :
    Describes num (2 * den) em.shiftRightOne := by
  obtain ⟨m, last, sticky⟩ := em
  obtain ⟨q, rfl | rfl⟩ := Nat.even_or_odd' m
  -- the bit that is dropped now is 0 in the first case and 1 in the second
  · have hshift : ExtendedMantissa.shiftRightOne ⟨2 * q, last, sticky⟩ =
        ⟨q, false, last || sticky⟩ := by
      simp [ExtendedMantissa.shiftRightOne]
    rw [hshift]
    cases last <;> cases sticky <;> simp only [Describes, Bool.or_false, Bool.or_true] at h ⊢
    · linarith
    all_goals constructor <;> linarith
  · have hshift : ExtendedMantissa.shiftRightOne ⟨2 * q + 1, last, sticky⟩ =
        ⟨q, true, last || sticky⟩ := by
      simp only [ExtendedMantissa.shiftRightOne, ExtendedMantissa.mk.injEq, and_true]
      exact ⟨by omega, by simp [Nat.add_mod]⟩
    rw [hshift]
    cases last <;> cases sticky <;> simp only [Describes, Bool.or_false, Bool.or_true] at h ⊢
    · linarith
    all_goals constructor <;> linarith

/-- A mantissa from which nothing was dropped. -/
def undropped (m : Nat) : ExtendedMantissa := ⟨m, false, false⟩

theorem describes_shiftRight (m k : Nat) : Describes m (2 ^ k) (undropped m >>> k) := by
  induction k with
  | zero => exact (Nat.mul_one m).symm
  | succ k ih =>
    rw [Nat.pow_succ, Nat.mul_comm]
    exact ih.shiftRightOne (Nat.two_pow_pos k)

/-- Rounding leaves the number within one half of a unit. -/
theorem Describes.near (h : Describes num den em) :
    2 * (em.roundedMantissa * den) ≤ 2 * num + den ∧
      2 * num ≤ 2 * (em.roundedMantissa * den) + den := by
  obtain ⟨q, last, sticky⟩ := em
  cases last <;> cases sticky <;>
    simp only [Describes, ExtendedMantissa.roundedMantissa, ExtendedMantissa.accuracy,
      Accuracy.roundToNearestEven] at h ⊢
  · constructor <;> linarith
  · constructor <;> linarith
  · rcases Nat.mod_two_eq_zero_or_one q with hq | hq <;> rw [hq] <;> constructor <;> linarith
  · constructor <;> linarith

/-! ### Rounding to 53 bits -/

theorem targetExponent_eq (m : Nat) (e : Int) :
    Format.binary64.targetExponent (totalExponent m e) = max (m.log2 + e - 52) (-1074) := by
  show max ((m.log2 : Int) + 1 + e - 53) (-1074) = _
  omega

theorem shiftToTargetExponent_eq {m k : Nat} {e : Int}
    (h : max ((m.log2 : Int) + e - 52) (-1074) - e = k) :
    shiftToTargetExponent .binary64 m e .exact = (undropped m >>> k, e + k) := by
  rw [← targetExponent_eq] at h
  have hk : (Format.binary64.targetExponent (totalExponent m e) - e).toNat = k := by omega
  simp only [shiftToTargetExponent, shiftToExponent, hk, ExtendedMantissa.ofMantissaAndAccuracy,
    undropped]

/-- The significand `n` of 53 bits is `m` without its last `k` bits, rounded to a multiple of
`2 ^ j`. -/
structure Shortens (m j n k : Nat) : Prop where
  significand_ge : 2 ^ 52 ≤ n
  significand_lt : n < 2 ^ 53
  shift_ge : j ≤ k
  shift_le : k ≤ j + 1
  near : 2 * (n * 2 ^ k) ≤ 2 * m + 2 ^ j ∧ 2 * m ≤ 2 * (n * 2 ^ k) + 2 ^ j

theorem roundWithAccuracy_eq {s : Sign} {m n : Nat} {e e₁ e₂ : Int} {em : ExtendedMantissa}
    (hfirst : shiftToTargetExponent .binary64 m e .exact = (em, e₁))
    (hsecond : shiftToTargetExponent .binary64 em.roundedMantissa e₁ .exact = (undropped n, e₂))
    (hn : 0 < n) : roundWithAccuracy .binary64 s m e .exact = .finite s n e₂ hn := by
  unfold roundWithAccuracy
  rw [hfirst]
  dsimp only
  rw [hsecond]
  exact dif_neg hn.ne'

/-- A number of `53 + j` bits loses `j` bits, or one more if it is rounded up to a power of two. -/
theorem exists_roundWithAccuracy (s : Sign) {m j : Nat} {e : Int} (hm : m ≠ 0)
    (hlog : m.log2 = 52 + j) (he : -1074 ≤ e + j) :
    ∃ (n k : Nat) (hn : 0 < n),
      roundWithAccuracy .binary64 s m e .exact = .finite s n (e + k) hn ∧ Shortens m j n k := by
  have hlow : 2 ^ 52 * 2 ^ j ≤ m := by
    rw [← Nat.pow_add, ← hlog]
    exact Nat.log2_self_le hm
  have hhigh : m < 2 ^ 53 * 2 ^ j := by
    rw [← Nat.pow_add, ← Nat.log2_lt hm]
    omega
  have hpos : 0 < 2 ^ j := Nat.two_pow_pos j
  have hfirst : shiftToTargetExponent .binary64 m e .exact = (undropped m >>> j, e + j) :=
    shiftToTargetExponent_eq (by omega)
  have hnear := (describes_shiftRight m j).near
  generalize hr : (undropped m >>> j).roundedMantissa = r at hnear
  have hge : 2 ^ 52 ≤ r := by
    by_contra hlt
    have hscaled := Nat.mul_le_mul_right (2 ^ j) (Nat.succ_le_of_lt (not_le.mp hlt))
    linarith
  have hle : r ≤ 2 ^ 53 := by
    by_contra hgt
    have hscaled := Nat.mul_le_mul_right (2 ^ j) (Nat.succ_le_of_lt (not_le.mp hgt))
    linarith
  rcases hle.lt_or_eq with hlt | rfl
  · have hrlog : r.log2 = 52 := (Nat.log2_eq_iff (by omega)).mpr ⟨hge, hlt⟩
    have hsecond : shiftToTargetExponent .binary64 r (e + j) .exact = (undropped r, e + j) := by
      have h := shiftToTargetExponent_eq (m := r) (k := 0) (e := e + j) (by omega)
      rwa [Int.natCast_zero, Int.add_zero] at h
    have hpositive : 0 < r := by omega
    exact ⟨r, j, hpositive, roundWithAccuracy_eq hfirst (hr ▸ hsecond) hpositive, hge, hlt, le_rfl,
      Nat.le_succ j, hnear⟩
  · have hsecond : shiftToTargetExponent .binary64 (2 ^ 53) (e + j) .exact =
        (undropped (2 ^ 52), e + (j + 1 : Nat)) := by
      have hhalf : undropped (2 ^ 53) >>> 1 = undropped (2 ^ 52) := rfl
      have h := shiftToTargetExponent_eq (m := 2 ^ 53) (k := 1) (e := e + j)
        (by rw [Nat.log2_two_pow]; omega)
      rw [h, hhalf, Int.add_assoc, Int.natCast_add]
    have hsame : 2 ^ 52 * 2 ^ (j + 1) = 2 ^ 53 * 2 ^ j := by ring
    refine ⟨2 ^ 52, j + 1, by decide,
      roundWithAccuracy_eq hfirst (hr ▸ hsecond) (by decide), le_rfl, by decide,
      Nat.le_succ j, le_rfl, ?_⟩
    rwa [hsame]

/-! ### Whole numbers -/

/-- The double `n * 2 ^ e` is the whole number `m`, rounded to 53 bits. -/
structure IsRounded (m n : Nat) (e : Int) : Prop where
  significand_ge : 2 ^ 52 ≤ n
  significand_lt : n < 2 ^ 53
  exponent_ge : m.log2 - 52 ≤ e
  exponent_le : e ≤ m.log2 - 51
  whole : 0 ≤ e ∨ n % 2 ^ (-e).toNat = 0
  near : 2 * wholePart n e ≤ 2 * m + 2 ^ (m.log2 - 52) ∧
    2 * m ≤ 2 * wholePart n e + 2 ^ (m.log2 - 52)

theorem log2_mul_two_pow {m : Nat} (hm : m ≠ 0) (t : Nat) : (m * 2 ^ t).log2 = m.log2 + t := by
  have hpos : m * 2 ^ t ≠ 0 := Nat.mul_ne_zero hm (Nat.two_pow_pos t).ne'
  rw [Nat.log2_eq_iff hpos, Nat.pow_add, Nat.add_right_comm, Nat.pow_add]
  exact ⟨Nat.mul_le_mul_right _ (Nat.log2_self_le hm),
    Nat.mul_lt_mul_of_pos_right Nat.lt_log2_self (Nat.two_pow_pos t)⟩

/-- The double `n * 2 ^ (k - t)` is the whole number `m`. -/
theorem whole_of_mul_eq {n k m t : Nat} (h : n * 2 ^ k = m * 2 ^ t) :
    wholePart n (-t + k) = m ∧ (0 ≤ -(t : Int) + k ∨ n % 2 ^ (-(-(t : Int) + k)).toNat = 0) := by
  rcases Nat.le_total t k with hle | hle
  · obtain ⟨d, rfl⟩ := Nat.exists_eq_add_of_le hle
    have hd : -(t : Int) + (t + d : Nat) = d := by omega
    have hm : n * 2 ^ d = m := by
      rw [Nat.add_comm, Nat.pow_add, ← Nat.mul_assoc] at h
      exact Nat.eq_of_mul_eq_mul_right (Nat.two_pow_pos t) h
    rw [hd]
    exact ⟨(if_pos (Int.natCast_nonneg d)).trans hm, .inl (Int.natCast_nonneg d)⟩
  · obtain ⟨d, rfl⟩ := Nat.exists_eq_add_of_le hle
    have hd : -((k + d : Nat) : Int) + k = -d := by omega
    have hn : n = m * 2 ^ d := by
      rw [Nat.add_comm k, Nat.pow_add, ← Nat.mul_assoc] at h
      exact Nat.eq_of_mul_eq_mul_right (Nat.two_pow_pos k) h
    rw [hd, hn, Int.neg_neg, Int.toNat_natCast]
    refine ⟨?_, .inr (Nat.mul_mod_left m _)⟩
    cases d with
    | zero => simp [wholePart]
    | succ d =>
      rw [wholePart, if_neg (by omega), Int.neg_neg, Int.toNat_natCast]
      exact Nat.mul_div_cancel m (Nat.two_pow_pos _)

theorem round_eq (s : Sign) {m t : Nat}
    (ht : ((0 : Int) - max ((m.log2 : Int) + 0 - 52) (-1074)).toNat = t) :
    UnpackedFloat.round .binary64 s m 0 =
      roundWithAccuracy .binary64 s (m * 2 ^ t) (-t) .exact := by
  simp only [UnpackedFloat.round, targetExponent_eq, decreaseExponent, Nat.shiftLeft_eq]
  rw [ht, Int.zero_sub]

theorem exists_round (s : Sign) {m : Nat} (hm : 0 < m) :
    ∃ (n : Nat) (e : Int) (hn : 0 < n),
      UnpackedFloat.round .binary64 s m 0 = .finite s n e hn ∧ IsRounded m n e := by
  rcases Nat.le_total m.log2 52 with hsmall | hlarge
  -- the number gets zeros at its end, and nothing is dropped
  · obtain ⟨t, ht⟩ := Nat.exists_eq_add_of_le hsmall
    have hpos : m * 2 ^ t ≠ 0 := Nat.mul_ne_zero hm.ne' (Nat.two_pow_pos t).ne'
    have hlog : (m * 2 ^ t).log2 = 52 + 0 := (log2_mul_two_pow hm.ne' t).trans ht.symm
    obtain ⟨n, k, hn, hround, hshort⟩ := exists_roundWithAccuracy s hpos hlog (e := -t) (by omega)
    have hk := hshort.shift_le
    have hnear := hshort.near
    obtain ⟨hpart, hwhole⟩ := whole_of_mul_eq (by omega : n * 2 ^ k = m * 2 ^ t)
    have hsub : m.log2 - 52 = 0 := by omega
    refine ⟨n, -t + k, hn, (round_eq s (by omega)).trans hround, hshort.significand_ge,
      hshort.significand_lt, by omega, by omega, hwhole, ?_⟩
    rw [hpart, hsub]
    omega
  · obtain ⟨j, hj⟩ := Nat.exists_eq_add_of_le hlarge
    have hkept : UnpackedFloat.round .binary64 s m 0 =
        roundWithAccuracy .binary64 s m 0 .exact := by
      rw [round_eq s (t := 0) (by omega), Nat.pow_zero, Nat.mul_one, Int.natCast_zero, Int.neg_zero]
    obtain ⟨n, k, hn, hround, hshort⟩ := exists_roundWithAccuracy s hm.ne' hj (e := 0) (by omega)
    have hge := hshort.shift_ge
    have hle := hshort.shift_le
    have hpart : wholePart n k = n * 2 ^ k := if_pos (Int.natCast_nonneg k)
    have hsub : m.log2 - 52 = j := by omega
    rw [Int.zero_add] at hround
    refine ⟨n, k, hn, hkept.trans hround, hshort.significand_ge, hshort.significand_lt, by omega,
      by omega, .inl (Int.natCast_nonneg k), ?_⟩
    rw [hpart, hsub]
    exact hshort.near

namespace IsRounded

variable {m n t : Nat} {e : Int}

theorem wholePart_eq (h : IsRounded m n e) (hm : m < 2 ^ 53) : wholePart n e = m := by
  have hlog : m.log2 - 52 = 0 := by
    rcases Nat.eq_zero_or_pos m with rfl | hpos
    · rfl
    · have hlt := (Nat.log2_lt hpos.ne').mpr hm
      omega
  have hnear := h.near
  rw [hlog] at hnear
  omega

theorem exists_wholePart (h : IsRounded m n e) (hm : 52 ≤ m.log2) :
    ∃ d, wholePart n e = 2 ^ (m.log2 - 52) * (n * 2 ^ d) := by
  have hge := h.exponent_ge
  obtain ⟨d, hd⟩ := Int.eq_ofNat_of_zero_le (a := e - (m.log2 - 52)) (by omega)
  have he : e.toNat = m.log2 - 52 + d := by omega
  refine ⟨d, (if_pos (by omega)).trans ?_⟩
  show n * 2 ^ e.toNat = _
  rw [he, Nat.pow_add, Nat.mul_left_comm]

theorem dvd_wholePart (h : IsRounded m n e) : 2 ^ (m.log2 - 52) ∣ wholePart n e := by
  rcases Nat.le_total m.log2 52 with hsmall | hlarge
  · rw [Nat.sub_eq_zero_of_le hsmall]
    exact one_dvd _
  · obtain ⟨d, hd⟩ := h.exists_wholePart hlarge
    exact hd ▸ Nat.dvd_mul_right _ _

theorem le_wholePart (h : IsRounded m n e) (hm : 52 ≤ m.log2) : 2 ^ m.log2 ≤ wholePart n e := by
  obtain ⟨d, hd⟩ := h.exists_wholePart hm
  calc 2 ^ m.log2 = 2 ^ (m.log2 - 52) * 2 ^ 52 := by rw [← Nat.pow_add, Nat.sub_add_cancel hm]
    _ ≤ 2 ^ (m.log2 - 52) * (n * 2 ^ d) :=
      Nat.mul_le_mul_left _ (h.significand_ge.trans (Nat.le_mul_of_pos_right n (Nat.two_pow_pos d)))
    _ = wholePart n e := hd.symm

/-- Multiples of the unit to which `m` is rounded are not nearer to it. -/
theorem near_of_dvd (h : IsRounded m n e) (ht : 2 ^ (m.log2 - 52) ∣ t) :
    ((wholePart n e : Int) - m).natAbs ≤ ((t : Int) - m).natAbs := by
  obtain ⟨hupper, hlower⟩ := h.near
  rcases Nat.lt_trichotomy t (wholePart n e) with hlt | rfl | hgt
  · have hunit := Nat.le_of_dvd (Nat.sub_pos_of_lt hlt) (Nat.dvd_sub h.dvd_wholePart ht)
    omega
  · exact le_rfl
  · have hunit := Nat.le_of_dvd (Nat.sub_pos_of_lt hgt) (Nat.dvd_sub ht h.dvd_wholePart)
    omega

/-- Numbers with fewer bits than `m` are not nearer to it: the least number with as many is a
multiple of the unit. -/
theorem near_of_lt (h : IsRounded m n e) (hm : m ≠ 0) (ht : t < 2 ^ m.log2) :
    ((wholePart n e : Int) - m).natAbs ≤ ((t : Int) - m).natAbs := by
  have hpower := h.near_of_dvd (Nat.pow_dvd_pow 2 (Nat.sub_le m.log2 52))
  have hle := Nat.log2_self_le hm
  omega

end IsRounded

end CommandChain.Double
