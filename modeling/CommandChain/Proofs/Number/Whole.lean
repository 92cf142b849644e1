import CommandChain.Proofs.Number.Rounding
import Mathlib.Algebra.Order.Field.Power
import Mathlib.Algebra.Order.Ring.Cast
import Mathlib.Algebra.Order.Ring.Rat
import Mathlib.Tactic.Positivity

/-!
# Whole numbers as doubles

The double of a whole number of 64 bits is whole and finite. Whole numbers up to `Number.maxSafe`
are doubles (`Double.toInt_ofInt`), greater ones become doubles that are greater as well
(`Double.maxSafe_lt_toInt_ofInt`), and no double is nearer to the number (`Double.isNearest_ofInt`).
The number 1 is told apart from all others, also from those that are too great for a finite double
(`Double.ofInt_beq_one`). -/

namespace CommandChain.Double

open Float.Model (UnpackedFloat Format)
open Float.Model.UnpackedFloat

/-! ### Doubles as bits -/

theorem unpackSign_packComponents {spec : Format} (s : Sign) (e : BitVec spec.exponentBits)
    (m : BitVec spec.mantissaBitsWithoutImplicit) :
    Sign.ofBitVec (unpackSign (packComponents spec s e m)) = s := by
  have hsign : unpackSign (packComponents spec s e m) = s.toBitVec := by
    ext i hi
    obtain rfl : i = 0 := Nat.lt_one_iff.mp hi
    unfold unpackSign packComponents
    simp [BitVec.getLsbD_append, BitVec.getElem_append]
  rw [hsign]
  cases s <;> rfl

/-- A significand of 53 bits is stored without its first bit. -/
theorem toNat_append_ofNat {n : Nat} (hlow : 2 ^ 52 ≤ n) (hhigh : n < 2 ^ 53) :
    (1#1 ++ BitVec.ofNat 52 n).toNat = n := by
  rw [BitVec.toNat_append, ← Nat.shiftLeft_add_eq_or_of_lt (BitVec.isLt _), BitVec.toNat_ofNat,
    Nat.shiftLeft_eq, BitVec.toNat_ofNat]
  omega

theorem finite_congr {s s' : Sign} {m m' : Nat} {e e' : Int} {hm : 0 < m} {hm' : 0 < m'}
    (hsign : s = s') (hmantissa : m = m') (hexponent : e = e') :
    UnpackedFloat.finite s m e hm = .finite s' m' e' hm' := by
  subst hsign hmantissa hexponent
  rfl

theorem unpack_packedInfinity (s : Sign) :
    unpack .binary64 (packedInfinity .binary64 s) = .infinity s := by
  have hsign := @unpackSign_packComponents .binary64 s (-1#11) 0
  exact (if_pos unpackExponent_packComponents).trans
    ((if_pos unpackMantissa_packComponents).trans (congrArg UnpackedFloat.infinity hsign))

theorem unpack_packComponents (s : Sign) {b n : Nat} (hb : 0 < b) (hb' : b < 2047)
    (hlow : 2 ^ 52 ≤ n) (hhigh : n < 2 ^ 53) :
    unpack .binary64 (packComponents .binary64 s (BitVec.ofNat 11 b) (BitVec.ofNat 52 n)) =
      .finite s n (b - 1075) (by omega) := by
  have htoNat : (BitVec.ofNat 11 b).toNat = b := by
    rw [BitVec.toNat_ofNat]
    omega
  have hmax : BitVec.ofNat 11 b ≠ -1#11 := by
    intro h
    have htop : b = 2047 := htoNat.symm.trans (congrArg BitVec.toNat h)
    omega
  have hzero : BitVec.ofNat 11 b ≠ 0#11 := by
    intro h
    have hbottom : b = 0 := htoNat.symm.trans (congrArg BitVec.toNat h)
    omega
  set bits := packComponents .binary64 s (BitVec.ofNat 11 b) (BitVec.ofNat 52 n)
  have hexponent : unpackExponent bits = BitVec.ofNat 11 b := unpackExponent_packComponents
  have hmantissa : unpackMantissa bits = BitVec.ofNat 52 n := unpackMantissa_packComponents
  rw [← hexponent] at hmax hzero htoNat
  refine (if_neg hmax).trans ((if_neg hzero).trans ?_)
  refine finite_congr (unpackSign_packComponents s _ _) ?_ ?_
  · exact (congrArg (fun m => (1#1 ++ m).toNat) hmantissa).trans (toNat_append_ofNat hlow hhigh)
  · show ((unpackExponent bits).toNat : Int) - 1075 = _
    rw [htoNat]

/-- Of normal numbers those that are too great become infinite, and the others are kept. -/
theorem unpack_pack_normal (s : Sign) {n : Nat} {e : Int} (hn : 0 < n) (hlow : 2 ^ 52 ≤ n)
    (hhigh : n < 2 ^ 53) (he : -1074 ≤ e) :
    (Float.Model.pack (.finite s n e hn)).unpack =
      if e ≤ 971 then .finite s n e hn else .infinity s := by
  have hlog : n.log2 + 1 = Format.binary64.mantissaBits := by
    rw [(Nat.log2_eq_iff hn.ne').mpr ⟨hlow, hhigh⟩]
    rfl
  have hbiased : (e + (Format.binary64.exponentBias : Nat) + (52 : Nat)).toNat =
      (e + 1075).toNat := by
    show (e + 1023 + 52).toNat = _
    omega
  show unpack .binary64 (if 2048 ≤ (e + (Format.binary64.exponentBias : Nat) + (52 : Nat)).toNat + 1
    then packedInfinity .binary64 s
    else if n.log2 + 1 = Format.binary64.mantissaBits then _ else _) = _
  rw [hbiased, if_pos hlog]
  by_cases hmax : e ≤ 971
  · rw [if_pos hmax, if_neg (by omega), unpack_packComponents s (by omega) (by omega) hlow hhigh]
    exact finite_congr rfl rfl (by omega)
  · rw [if_neg hmax, if_pos (by omega)]
    exact unpack_packedInfinity s

/-! ### Doubles of whole numbers -/

variable {i : Int}

/-- A whole number other than 0 is rounded, and is infinite if it is too great then. -/
theorem exists_unpack_ofInt (hi : i ≠ 0) :
    ∃ (n : Nat) (e : Int) (hn : 0 < n), IsRounded i.natAbs n e ∧
      (ofInt i).toModel.unpack =
        if e ≤ 971 then .finite (signOf (i < 0)) n e hn else .infinity (signOf (i < 0)) := by
  obtain ⟨n, e, hn, hround, h⟩ := exists_round (signOf (i < 0)) (Int.natAbs_pos.mpr hi)
  refine ⟨n, e, hn, h, ?_⟩
  have hnormal : UnpackedFloat.ofInt .binary64 i = .finite (signOf (i < 0)) n e hn := by
    rw [← hround, UnpackedFloat.ofInt, UnpackedFloat.normalize]
    rcases Int.lt_or_gt_of_ne hi with hneg | hpos
    · rw [Int.compare_eq_lt.mpr hneg, decide_eq_true hneg, ← Int.ofNat_natAbs_of_nonpos hneg.le]
      rfl
    · rw [Int.compare_eq_gt.mpr hpos, decide_eq_false hpos.le.not_gt,
        ← Int.natAbs_of_nonneg hpos.le]
      rfl
  have hge := h.exponent_ge
  show (Float.Model.pack (UnpackedFloat.ofInt .binary64 i)).unpack = _
  rw [hnormal]
  exact unpack_pack_normal _ hn h.significand_ge h.significand_lt (by omega)

theorem exists_parts_ofInt (hi : i ≠ 0) (h64 : i.natAbs < 2 ^ 64) :
    ∃ n e, parts (ofInt i) = .finite (i < 0) n e ∧ IsRounded i.natAbs n e := by
  obtain ⟨n, e, hn, h, hunpack⟩ := exists_unpack_ofInt hi
  have hlog : i.natAbs.log2 < 64 := (Nat.log2_lt (Int.natAbs_ne_zero.mpr hi)).mpr h64
  have hle := h.exponent_le
  refine ⟨n, e, ?_, h⟩
  rw [parts, hunpack, if_pos (by omega)]
  cases decide (i < 0) <;> rfl

theorem isWhole_ofInt (h64 : i.natAbs < 2 ^ 64) : isWhole (ofInt i) = true := by
  rcases eq_or_ne i 0 with rfl | hi
  · rfl
  · obtain ⟨n, e, hparts, h⟩ := exists_parts_ofInt hi h64
    simp only [isWhole, hparts, Bool.or_eq_true, decide_eq_true_eq, beq_iff_eq]
    exact h.whole

theorem isFinite_ofInt (h64 : i.natAbs < 2 ^ 64) : isFinite (ofInt i) = true := by
  rcases eq_or_ne i 0 with rfl | hi
  · rfl
  · obtain ⟨n, e, hparts, -⟩ := exists_parts_ofInt hi h64
    simp only [isFinite, hparts]

theorem toInt_ofInt (h : i.natAbs ≤ Number.maxSafe) : toInt (ofInt i) = i := by
  have hmax : Number.maxSafe = 9007199254740991 := rfl
  rcases eq_or_ne i 0 with rfl | hi
  · rfl
  · obtain ⟨n, e, hparts, hrounded⟩ := exists_parts_ofInt hi (by omega)
    simp only [toInt, hparts, hrounded.wholePart_eq (by omega), decide_eq_true_eq]
    split_ifs <;> omega

theorem maxSafe_lt_toInt_ofInt (h : Number.maxSafe < i.natAbs) (h64 : i.natAbs < 2 ^ 64) :
    Number.maxSafe < (toInt (ofInt i)).natAbs := by
  have hmax : Number.maxSafe = 2 ^ 53 - 1 := rfl
  have hlog : 53 ≤ i.natAbs.log2 := (Nat.le_log2 (by omega)).mpr (by omega)
  obtain ⟨n, e, hparts, hrounded⟩ := exists_parts_ofInt (by omega) h64
  have hpower : 2 ^ 53 ≤ 2 ^ i.natAbs.log2 := Nat.pow_le_pow_right (by decide) hlog
  have hge := hrounded.le_wholePart (by omega)
  simp only [toInt, hparts, decide_eq_true_eq]
  split_ifs <;> omega

theorem lt_of_unpack {b : BitVec Format.binary64.numBits} {s : Sign} {n : Nat}
    {e : Int} {hn : 0 < n} (h : unpack .binary64 b = .finite s n e hn) : n < 2 ^ 53 := by
  by_cases hmax : unpackExponent b = -1#11
  · by_cases hzero : unpackMantissa b = 0#52
    · have hinfinite : unpack .binary64 b = _ := (if_pos hmax).trans (if_pos hzero)
      cases hinfinite.symm.trans h
    · have hnan : unpack .binary64 b = _ := (if_pos hmax).trans (if_neg hzero)
      cases hnan.symm.trans h
  · by_cases hexponent : unpackExponent b = 0#11
    · by_cases hzero : unpackMantissa b = 0#52
      · have hzero : unpack .binary64 b = _ :=
          (if_neg hmax).trans ((if_pos hexponent).trans (dif_pos hzero))
        cases hzero.symm.trans h
      · have hsubnormal : unpack .binary64 b = _ :=
          (if_neg hmax).trans ((if_pos hexponent).trans (dif_neg hzero))
        have hlt : (unpackMantissa b).toNat < 2 ^ 52 := BitVec.isLt _
        cases hsubnormal.symm.trans h
        omega
    · have hnormal : unpack .binary64 b = _ := (if_neg hmax).trans (if_neg hexponent)
      cases hnormal.symm.trans h
      exact BitVec.isLt _

/-- The significand of a double has at most 53 bits. -/
theorem lt_of_parts {x : Float} {negative : Bool} {n : Nat} {e : Int}
    (h : parts x = .finite negative n e) : n < 2 ^ 53 := by
  unfold parts at h
  split at h
  · cases h
  · cases h
  · cases h
    decide
  · rename_i hunpack
    cases h
    exact lt_of_unpack hunpack

/-- A double that is not a multiple of the unit of a number has fewer bits than the number. -/
theorem dvd_wholePart_or_lt {n : Nat} (hn : n < 2 ^ 53) (e : Int) (bits : Nat) :
    2 ^ (bits - 52) ∣ wholePart n e ∨ wholePart n e < 2 ^ bits := by
  rcases Nat.le_total bits 52 with hbits | hbits
  · rw [Nat.sub_eq_zero_of_le hbits]
    exact .inl (one_dvd _)
  unfold wholePart
  split_ifs with he
  · rcases le_or_gt (bits - 52) e.toNat with hle | hlt
    · exact .inl ((Nat.pow_dvd_pow 2 hle).mul_left n)
    · refine .inr ?_
      calc n * 2 ^ e.toNat < 2 ^ 53 * 2 ^ e.toNat :=
          Nat.mul_lt_mul_of_pos_right hn (Nat.two_pow_pos _)
        _ = 2 ^ (53 + e.toNat) := (Nat.pow_add 2 53 e.toNat).symm
        _ ≤ 2 ^ bits := Nat.pow_le_pow_right (by decide) (by omega)
  · rcases hbits.eq_or_lt with rfl | hlt
    · exact .inl (one_dvd _)
    · refine .inr ?_
      calc n / 2 ^ (-e).toNat ≤ n := Nat.div_le_self n _
        _ < 2 ^ 53 := hn
        _ ≤ 2 ^ bits := Nat.pow_le_pow_right (by decide) hlt

/-- No whole double is nearer to a whole number than its own. -/
theorem near_toInt_ofInt (h64 : i.natAbs < 2 ^ 64) {y : Float} (hy : isWhole y = true) :
    |toInt (ofInt i) - i| ≤ |toInt y - i| := by
  rw [Int.abs_eq_natAbs, Int.abs_eq_natAbs, Int.ofNat_le]
  rcases eq_or_ne i 0 with rfl | hi
  · exact Nat.zero_le _
  · obtain ⟨n, e, hparts, h⟩ := exists_parts_ofInt hi h64
    have hnear {t : Nat} (ht : 2 ^ (i.natAbs.log2 - 52) ∣ t ∨ t < 2 ^ i.natAbs.log2) :
        ((wholePart n e : Int) - i.natAbs).natAbs ≤ ((t : Int) - i.natAbs).natAbs :=
      ht.elim h.near_of_dvd (h.near_of_lt (Int.natAbs_ne_zero.mpr hi))
    -- the bound for a double of the other sign is the one for 0
    have hzero := hnear (.inl (dvd_zero _))
    cases hy' : parts y with
    | finite negative m f =>
      have hdouble := hnear (dvd_wholePart_or_lt (lt_of_parts hy') f _)
      simp only [toInt, hparts, hy', decide_eq_true_eq]
      split_ifs <;> omega
    | nan | infinite => simp [isWhole, hy'] at hy

/-- Nor is the power of two with 54 bits nearer to a number that is as great. -/
theorem near_power_of_maxSafe_lt (h : Number.maxSafe < i.natAbs) (h64 : i.natAbs < 2 ^ 64) :
    |toInt (ofInt i) - i| ≤ |i| - 2 ^ 53 := by
  have hmax : Number.maxSafe = 9007199254740991 := rfl
  have hpower : toInt (ofInt 9007199254740992) = 9007199254740992 := by decide +kernel
  have hpower' : toInt (ofInt (-9007199254740992)) = -9007199254740992 := by decide +kernel
  have hnear := near_toInt_ofInt h64 (isWhole_ofInt (i := 9007199254740992) (by decide))
  have hnear' := near_toInt_ofInt h64 (isWhole_ofInt (i := -9007199254740992) (by decide))
  rw [hpower] at hnear
  rw [hpower'] at hnear'
  simp only [Int.abs_eq_natAbs] at hnear hnear' ⊢
  omega

/-! ### The nearest double -/

/-- The rational number that a finite double is. -/
def value (x : Float) : ℚ :=
  match parts x with
  | .finite negative n e => (if negative then -(n : ℚ) else n) * 2 ^ e
  | _ => 0

theorem two_zpow (e : Int) : (2 : ℚ) ^ e = 2 ^ e.toNat / 2 ^ (-e).toNat := by
  conv_lhs => rw [← Int.toNat_sub_toNat_neg e]
  rw [zpow_sub₀ two_ne_zero, zpow_natCast, zpow_natCast]

theorem value_of_isWhole {x : Float} (h : isWhole x = true) : value x = toInt x := by
  cases hx : parts x with
  | finite negative n e =>
    simp only [isWhole, hx, Bool.or_eq_true, decide_eq_true_eq, beq_iff_eq] at h
    have hscaled : n * 2 ^ e.toNat = wholePart n e * 2 ^ (-e).toNat := by
      unfold wholePart
      split_ifs with he
      · rw [show (-e).toNat = 0 by omega, Nat.pow_zero, Nat.mul_one]
        rfl
      · rw [show e.toNat = 0 by omega, Nat.pow_zero, Nat.mul_one]
        exact (Nat.div_mul_cancel (Nat.dvd_of_mod_eq_zero (h.resolve_left he))).symm
    have hpart : (n : ℚ) * 2 ^ e = wholePart n e := by
      rw [two_zpow, ← mul_div_assoc, div_eq_iff (by positivity)]
      exact_mod_cast hscaled
    simp only [value, toInt, hx]
    split_ifs
    · rw [neg_mul, hpart, Int.cast_neg, Int.cast_natCast]
    · rw [hpart, Int.cast_natCast]
  | nan | infinite => simp [isWhole, hx] at h

theorem abs_value_lt {x : Float} (hfinite : isFinite x = true) (hwhole : isWhole x = false) :
    |value x| < 2 ^ 53 := by
  cases hx : parts x with
  | finite negative n e =>
    simp only [isWhole, hx, Bool.or_eq_false_iff, decide_eq_false_iff_not] at hwhole
    have hpow : (2 : ℚ) ^ e ≤ 1 := zpow_le_one_of_nonpos₀ one_le_two (not_le.mp hwhole.1).le
    have habs : |value x| = n * 2 ^ e := by
      have hpos : (0 : ℚ) ≤ n * 2 ^ e := by positivity
      simp only [value, hx]
      split_ifs
      · rw [neg_mul, abs_neg, abs_of_nonneg hpos]
      · rw [abs_of_nonneg hpos]
    calc |value x| = n * 2 ^ e := habs
      _ ≤ n := mul_le_of_le_one_right n.cast_nonneg hpow
      _ < 2 ^ 53 := by exact_mod_cast lt_of_parts hx
  | nan | infinite => simp [isFinite, hx] at hfinite

/-- No finite double is nearer to the whole number than `x`, which is finite. -/
def IsNearest (x : Float) (i : Int) : Prop :=
  isFinite x = true ∧ ∀ y, isFinite y = true → |value x - i| ≤ |value y - i|

theorem isNearest_ofInt (h64 : i.natAbs < 2 ^ 64) : IsNearest (ofInt i) i := by
  refine ⟨isFinite_ofInt h64, fun y hy => ?_⟩
  rw [value_of_isWhole (isWhole_ofInt h64)]
  cases hwhole : isWhole y with
  | true =>
    rw [value_of_isWhole hwhole]
    exact_mod_cast near_toInt_ofInt h64 hwhole
  | false =>
    rcases Nat.lt_or_ge Number.maxSafe i.natAbs with hgreat | hsafe
    · calc |(toInt (ofInt i) : ℚ) - i| ≤ |(i : ℚ)| - 2 ^ 53 := by
            exact_mod_cast near_power_of_maxSafe_lt hgreat h64
        _ ≤ |(i : ℚ)| - |value y| := sub_le_sub_left (abs_value_lt hy hwhole).le _
        _ ≤ |(i : ℚ) - value y| := abs_sub_abs_le_abs_sub _ _
        _ = |value y - i| := abs_sub_comm _ _
    · rw [toInt_ofInt hsafe, sub_self, abs_zero]
      exact abs_nonneg _

theorem ofInt_beq_one (k : Nat) : (ofInt k == ofInt 1) = decide (k = 1) := by
  obtain rfl | rfl | hge : k = 0 ∨ k = 1 ∨ 2 ≤ k := by omega
  · decide +kernel
  · decide +kernel
  · obtain ⟨n, e, hn, h, hunpack⟩ := exists_unpack_ofInt (i := k) (by omega)
    have hone : (ofInt 1).toModel.unpack = .finite .positive (2 ^ 52) (-52) (by decide) := rfl
    have hlog : 1 ≤ (k : Int).natAbs.log2 := (Nat.le_log2 (by omega)).mpr (by omega)
    have hge := h.exponent_ge
    have hexponent : compare e (-52) = .gt := Int.compare_eq_gt.mpr (by omega)
    have hgreater : (ofInt k).toModel.unpack.compare (ofInt 1).toModel.unpack = some .gt := by
      rw [hunpack, hone, decide_eq_false (Int.natCast_nonneg k).not_gt]
      by_cases hfinite : e ≤ 971
      · rw [if_pos hfinite]
        show some ((compare e (-52)).then (compare n (2 ^ 52))) = _
        rw [hexponent]
        rfl
      · rw [if_neg hfinite]
        rfl
    have hne : ¬ k = 1 := by omega
    rw [decide_eq_false hne]
    show ((ofInt k).toModel.unpack.compare (ofInt 1).toModel.unpack == some .eq) = false
    rw [hgreater]
    rfl

end CommandChain.Double
