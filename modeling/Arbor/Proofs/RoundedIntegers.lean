import Arbor.Parameter.Store
import Arbor.Scalar.Double
import Mathlib

namespace Arbor.Rounding

open Float.Model Float.Model.UnpackedFloat

def bits (em : ExtendedMantissa) : Nat :=
  4 * em.mantissa + 2 * em.roundBit.toNat + em.stickyBit.toNat

theorem bits_shiftRightOne (em : ExtendedMantissa) :
    bits em.shiftRightOne = bits em / 4 * 2 + min (bits em % 4) 1 := by
  rcases em with ⟨m, r, s⟩
  have hodd : (m % 2 != 0).toNat = m % 2 := by
    rcases Nat.mod_two_eq_zero_or_one m with h | h <;> rw [h] <;> rfl
  simp only [bits, ExtendedMantissa.shiftRightOne, hodd]
  cases r <;> cases s <;> simp <;> omega

theorem roundedMantissa_eq (em : ExtendedMantissa) :
    em.roundedMantissa = (bits em + 1 + em.mantissa % 2) / 4 := by
  rcases em with ⟨m, r, s⟩
  cases r <;> cases s <;> simp only [bits, ExtendedMantissa.roundedMantissa,
    ExtendedMantissa.accuracy, Accuracy.roundToNearestEven, Bool.toNat_true, Bool.toNat_false] <;>
    omega

theorem mantissa_eq (em : ExtendedMantissa) : em.mantissa = bits em / 4 := by
  rcases em with ⟨m, r, s⟩
  cases r <;> cases s <;> simp only [bits, Bool.toNat_true, Bool.toNat_false] <;> omega

theorem bits_shiftRight_mono {a b : ExtendedMantissa} (h : bits a ≤ bits b) (k : Nat) :
    bits (a >>> k) ≤ bits (b >>> k) := by
  induction k with
  | zero => exact h
  | succ k ih =>
      have hstep : bits (a >>> k).shiftRightOne ≤ bits (b >>> k).shiftRightOne := by
        rw [bits_shiftRightOne, bits_shiftRightOne]
        omega
      exact hstep

theorem roundedMantissa_mono {a b : ExtendedMantissa} (h : bits a ≤ bits b) :
    a.roundedMantissa ≤ b.roundedMantissa := by
  rw [roundedMantissa_eq, roundedMantissa_eq]
  have ha := mantissa_eq a
  have hb := mantissa_eq b
  rcases Nat.lt_or_ge a.mantissa b.mantissa with hlt | hge
  · omega
  · have heq : a.mantissa = b.mantissa := by omega
    rw [heq]
    exact Nat.div_le_div_right (by omega)

theorem shiftRight_exact (m k : Nat) :
    (⟨m * 2 ^ k, false, false⟩ : ExtendedMantissa) >>> k = ⟨m, false, false⟩ := by
  induction k generalizing m with
  | zero => simp [HShiftRight.hShiftRight, Nat.repeat]
  | succ k ih =>
      have hstep : ((⟨m * 2 ^ (k + 1), false, false⟩ : ExtendedMantissa) >>> k).shiftRightOne =
          ⟨m, false, false⟩ := by
        rw [Nat.pow_succ, ← Nat.mul_assoc, Nat.mul_right_comm, ih]
        simp [ExtendedMantissa.shiftRightOne]
      exact hstep

/-- The mantissa of 53 bits that is nearest to an integer, or one more bit if that is `2 ^ 53`. -/
def rounded (n : Nat) : Nat :=
  ((⟨n * 2 ^ 53, false, false⟩ : ExtendedMantissa) >>> (n.log2 + 1)).roundedMantissa

theorem rounded_mono {a b : Nat} (hlog : a.log2 = b.log2) (h : a ≤ b) : rounded a ≤ rounded b := by
  unfold rounded
  rw [hlog]
  apply roundedMantissa_mono
  apply bits_shiftRight_mono
  simp only [bits]
  omega

theorem roundedMantissa_exact {n m k : Nat} (h : n = m * 2 ^ k) :
    ((⟨n, false, false⟩ : ExtendedMantissa) >>> k).roundedMantissa = m := by
  rw [h, shiftRight_exact]
  rfl

theorem le_rounded {n : Nat} (h : n ≠ 0) : 2 ^ 52 ≤ rounded n := by
  have hlog : (2 ^ n.log2 : Nat).log2 = n.log2 := Nat.log2_two_pow
  have hexact : rounded (2 ^ n.log2) = 2 ^ 52 := by
    unfold rounded
    rw [hlog]
    apply roundedMantissa_exact
    rw [← Nat.pow_add, ← Nat.pow_add]
    congr 1
    omega
  rw [← hexact]
  exact rounded_mono hlog (Nat.log2_self_le h)

theorem rounded_le (n : Nat) : rounded n ≤ 2 ^ 53 := by
  have hexact : ((⟨2 ^ (n.log2 + 1) * 2 ^ 53, false, false⟩ : ExtendedMantissa) >>>
      (n.log2 + 1)).roundedMantissa = 2 ^ 53 := roundedMantissa_exact (Nat.mul_comm _ _)
  rw [← hexact]
  unfold rounded
  apply roundedMantissa_mono
  apply bits_shiftRight_mono
  have hlt : n < 2 ^ (n.log2 + 1) := Nat.lt_log2_self
  simp only [bits]
  omega

theorem rounded_exact {n : Nat} (h : n ≤ 2 ^ 53) : rounded n * 2 ^ (n.log2 + 1) = n * 2 ^ 53 := by
  have hshift : ∃ m, n * 2 ^ 53 = m * 2 ^ (n.log2 + 1) := by
    rcases Nat.lt_or_ge n (2 ^ 53) with hlt | hge
    · have hlog : n.log2 < 53 := by
        rcases Nat.eq_zero_or_pos n with rfl | hpos
        · decide
        · exact (Nat.log2_lt hpos.ne').mpr hlt
      refine ⟨n * 2 ^ (52 - n.log2), ?_⟩
      rw [Nat.mul_assoc, ← Nat.pow_add]
      congr 2
      omega
    · obtain rfl : n = 2 ^ 53 := Nat.le_antisymm h hge
      refine ⟨2 ^ 52, ?_⟩
      rw [Nat.log2_two_pow, ← Nat.pow_add, ← Nat.pow_add]
  obtain ⟨m, hm⟩ := hshift
  rw [rounded, roundedMantissa_exact hm, hm]

/-- A mantissa of 53 bits and its exponent, with the place `p` that they have among all such. -/
structure Digits (p : Int) (m : Nat) (e : Int) : Prop where
  lower : 2 ^ 52 ≤ m
  upper : m < 2 ^ 53
  place : (e + 52) * 2 ^ 52 + m = p

theorem Digits.unique {p e e' : Int} {m m' : Nat} (h : Digits p m e) (h' : Digits p m' e') :
    m = m' ∧ e = e' := by
  obtain ⟨hlower, hupper, hplace⟩ := h
  obtain ⟨hlower', hupper', hplace'⟩ := h'
  omega

theorem log2_mul_two_pow {n : Nat} (h : n ≠ 0) (k : Nat) : (n * 2 ^ k).log2 = n.log2 + k := by
  rw [Nat.log2_eq_iff (Nat.mul_ne_zero h (Nat.two_pow_pos k).ne')]
  constructor
  · rw [Nat.pow_add]
    exact Nat.mul_le_mul_right _ (Nat.log2_self_le h)
  · rw [Nat.add_right_comm, Nat.pow_add]
    exact Nat.mul_lt_mul_of_pos_right Nat.lt_log2_self (Nat.two_pow_pos k)

theorem shiftToTargetExponent_eq {m : Nat} {e : Int} (k : Nat) (hm : m.log2 = 52 + k)
    (he : -1074 ≤ e) : shiftToTargetExponent Format.binary64 m e .exact =
      ((⟨m, false, false⟩ : ExtendedMantissa) >>> k, e + k) := by
  have htarget : Format.binary64.targetExponent (totalExponent m e) = e + k := by
    simp only [Format.targetExponent, totalExponent, Format.mantissaBits, Format.minExponent, hm]
    omega
  have hshift : (e + k - e).toNat = k := by omega
  unfold shiftToTargetExponent
  rw [htarget]
  simp only [shiftToExponent, hshift, ExtendedMantissa.ofMantissaAndAccuracy]

theorem roundWithAccuracy_digits {n : Nat} {e : Int} {first : ExtendedMantissa × Int}
    (hfirst : shiftToTargetExponent Format.binary64 n e .exact = first)
    (hlower : 2 ^ 52 ≤ first.1.roundedMantissa) (hupper : first.1.roundedMantissa ≤ 2 ^ 53)
    (he : -1074 ≤ first.2) :
    ∃ m e' hm, roundWithAccuracy Format.binary64 .positive n e .exact =
      .finite .positive m e' hm ∧
        Digits ((first.2 + 52) * 2 ^ 52 + first.1.roundedMantissa) m e' := by
  have hround : roundWithAccuracy Format.binary64 .positive n e .exact =
      let second := shiftToTargetExponent Format.binary64 first.1.roundedMantissa first.2 .exact
      if h : second.1.mantissa = 0 then .zero .positive
      else .finite .positive second.1.mantissa second.2 (Nat.pos_of_ne_zero h) := by
    rw [← hfirst]
    rfl
  rw [hround]
  generalize first.1.roundedMantissa = r at hlower hupper
  have hr : r ≠ 0 := by omega
  rcases Nat.lt_or_eq_of_le hupper with hlt | rfl
  · have hlog : r.log2 = 52 + 0 := (Nat.log2_eq_iff hr).mpr ⟨hlower, hlt⟩
    have hzero : first.2 + ((0 : Nat) : Int) = first.2 := Int.add_zero _
    rw [shiftToTargetExponent_eq 0 hlog he, hzero]
    exact ⟨r, first.2, Nat.pos_of_ne_zero hr, dif_neg hr, hlower, hlt, rfl⟩
  · -- the carry has made a 54th bit, and all bits below it are zero
    have hlog : (2 ^ 53 : Nat).log2 = 52 + 1 := Nat.log2_two_pow
    rw [shiftToTargetExponent_eq 1 hlog he]
    refine ⟨2 ^ 52, first.2 + 1, by decide, rfl, by decide, by decide, ?_⟩
    push_cast
    omega

theorem roundWithAccuracy_exact {m k : Nat} {e e' : Int} (hlower : 2 ^ 52 ≤ m)
    (hupper : m < 2 ^ 53) (he : -1074 ≤ e) (he' : e + k = e') :
    ∃ hm, roundWithAccuracy Format.binary64 .positive (m * 2 ^ k) e .exact =
      .finite .positive m e' hm := by
  have hne : m ≠ 0 := by omega
  have hlog : (m * 2 ^ k).log2 = 52 + k := by
    rw [log2_mul_two_pow hne, (Nat.log2_eq_iff hne).mpr ⟨hlower, hupper⟩]
  have hfirst := shiftToTargetExponent_eq k hlog he
  rw [shiftRight_exact, he'] at hfirst
  obtain ⟨m₁, e₁, hm, hround, hdigits⟩ :=
    roundWithAccuracy_digits hfirst hlower hupper.le (by omega)
  obtain ⟨rfl, rfl⟩ := hdigits.unique ⟨hlower, hupper, rfl⟩
  exact ⟨hm, hround⟩

/-- The place of a positive integer among the mantissas with their exponents. -/
def place (n : Nat) : Nat := n.log2 * 2 ^ 52 + rounded n

theorem roundWithAccuracy_place {n : Nat} (h : n ≠ 0) :
    ∃ m e hm, roundWithAccuracy Format.binary64 .positive (n * 2 ^ 53) (-53) .exact =
      .finite .positive m e hm ∧ Digits (place n) m e := by
  have hlog : (n * 2 ^ 53).log2 = 52 + (n.log2 + 1) := by
    rw [log2_mul_two_pow h]
    omega
  have hfirst := shiftToTargetExponent_eq (e := -53) (n.log2 + 1) hlog (by decide)
  obtain ⟨m, e, hm, hround, hdigits⟩ :=
    roundWithAccuracy_digits hfirst (le_rounded h) (rounded_le n) (by dsimp only; omega)
  have hplace : ((-53 + ((n.log2 + 1 : Nat) : Int) + 52) * 2 ^ 52 + rounded n : Int) = place n := by
    unfold place
    omega
  exact ⟨m, e, hm, hround, hplace ▸ hdigits⟩

theorem log2_mono {a b : Nat} (ha : a ≠ 0) (h : a ≤ b) : a.log2 ≤ b.log2 := by
  rw [Nat.le_log2 (by omega)]
  exact (Nat.log2_self_le ha).trans h

theorem place_pos {n : Nat} (h : n ≠ 0) : 0 < place n := by
  have hlower := le_rounded h
  unfold place
  omega

theorem place_mono {a b : Nat} (h : a ≤ b) : place a ≤ place b := by
  rcases Nat.eq_zero_or_pos a with rfl | ha
  · exact Nat.zero_le _
  have hupper := rounded_le a
  have hlower : 2 ^ 52 ≤ rounded b := le_rounded (by omega)
  unfold place
  rcases Nat.lt_or_eq_of_le (log2_mono ha.ne' h) with hlt | heq
  · omega
  · have hrounded := rounded_mono heq h
    omega

theorem rounded_lt {n : Nat} (h : n ≤ 2 ^ 53) : rounded n < 2 ^ 53 := by
  apply lt_of_mul_lt_mul_right (a := 2 ^ (n.log2 + 1)) _ (Nat.zero_le _)
  rw [rounded_exact h, Nat.mul_comm]
  exact Nat.mul_lt_mul_of_pos_left Nat.lt_log2_self (by decide)

theorem place_lt {a b : Nat} (h : a < b) (hb : b ≤ 2 ^ 53) : place a < place b := by
  rcases Nat.eq_zero_or_pos a with rfl | ha
  · exact place_pos h.ne'
  have hlower : 2 ^ 52 ≤ rounded b := le_rounded (by omega)
  have hupper := rounded_lt (h.le.trans hb)
  unfold place
  rcases Nat.lt_or_eq_of_le (log2_mono ha.ne' h.le) with hlt | heq
  · omega
  · have hrounded : rounded a < rounded b := by
      apply lt_of_mul_lt_mul_right (a := 2 ^ (a.log2 + 1)) _ (Nat.zero_le _)
      rw [rounded_exact (h.le.trans hb), heq, rounded_exact hb]
      omega
    omega

theorem unpack_pack {s : Sign} {m : Nat} {e : Int} (hm : 0 < m) (hlower : 2 ^ 52 ≤ m)
    (hupper : m < 2 ^ 53) (he : -1074 ≤ e) (he' : e ≤ 971) :
    (Float.Model.pack (.finite s m e hm)).unpack = .finite s m e hm := by
  have hlog : m.log2 = 52 := (Nat.log2_eq_iff hm.ne').mpr ⟨hlower, hupper⟩
  obtain ⟨b, hb⟩ : ∃ b : Nat, (b : Int) = e + 1075 := ⟨(e + 1075).toNat, by omega⟩
  have hpack : UnpackedFloat.pack Format.binary64 (.finite s m e hm) =
      packComponents Format.binary64 s (BitVec.ofNat 11 b) (BitVec.ofNat 52 m) := by
    have hbiased : (e + (Format.exponentBias Format.binary64 : Nat) + (52 : Nat)).toNat = b := by
      have hbias : Format.exponentBias Format.binary64 = 1023 := rfl
      omega
    unfold UnpackedFloat.pack
    dsimp only
    rw [hbiased, if_neg (by omega), if_pos (by rw [hlog]; rfl)]
  have hexponent : (BitVec.ofNat 11 b).toNat = b := by
    rw [BitVec.toNat_ofNat]
    omega
  have hmantissa : (1#1 ++ BitVec.ofNat 52 m).toNat = m := by
    rw [BitVec.toNat_append, ← Nat.shiftLeft_add_eq_or_of_lt (BitVec.isLt _), BitVec.toNat_ofNat]
    change 2 ^ 52 + m % 2 ^ 52 = m
    omega
  -- the exponent is neither that of infinities nor that of subnormal numbers
  have hfinite : BitVec.ofNat 11 b ≠ -1#11 := by
    intro h
    rw [h] at hexponent
    have hmax : (-1#11).toNat = 2047 := rfl
    omega
  have hnormal : BitVec.ofNat 11 b ≠ 0#11 := by
    intro h
    rw [h] at hexponent
    have hmin : (0#11).toNat = 0 := rfl
    omega
  change UnpackedFloat.unpack Format.binary64 (UnpackedFloat.pack Format.binary64 _) = _
  rw [hpack]
  unfold UnpackedFloat.unpack
  simp only [unpackMantissa_packComponents, unpackExponent_packComponents,
    unpackSign_packComponents, Sign.ofBitVec_toBitVec, hfinite, hnormal, if_false, hexponent,
    hmantissa]
  have hbias : (b : Int) - ((Format.exponentBias Format.binary64 : Nat) + (52 : Nat)) = e := by
    have hbias : Format.exponentBias Format.binary64 = 1023 := rfl
    omega
  simp only [hbias]

theorem unpack_one : (Float.ofBits 0x3FF0000000000000).toModel.unpack =
    .finite .positive (2 ^ 52) (-52) (by decide) := rfl

theorem round_of_lt {n : Nat} (h : n ≠ 0) (hlt : n < 2 ^ 53) :
    ∃ hm, UnpackedFloat.round Format.binary64 .positive n 0 =
      .finite .positive (rounded n) ((n.log2 : Int) - 52) hm := by
  have hlog : n.log2 < 53 := (Nat.log2_lt h).mpr hlt
  have hrounded : n * 2 ^ (52 - n.log2) = rounded n := by
    apply Nat.eq_of_mul_eq_mul_right (Nat.two_pow_pos (n.log2 + 1))
    rw [rounded_exact hlt.le, Nat.mul_assoc, ← Nat.pow_add]
    congr 2
    omega
  have htarget : Format.binary64.targetExponent (totalExponent n 0) = (n.log2 : Int) - 52 := by
    simp only [Format.targetExponent, totalExponent, Format.mantissaBits, Format.minExponent]
    omega
  have hdecrease : decreaseExponent n 0 ((n.log2 : Int) - 52) =
      (rounded n * 2 ^ 0, (n.log2 : Int) - 52) := by
    have hshift : ((0 : Int) - ((n.log2 : Int) - 52)).toNat = 52 - n.log2 := by omega
    unfold decreaseExponent
    dsimp only
    rw [hshift, Nat.shiftLeft_eq, hrounded, Nat.pow_zero, Nat.mul_one]
    congr 1
    omega
  unfold UnpackedFloat.round
  rw [htarget]
  dsimp only
  rw [hdecrease]
  exact roundWithAccuracy_exact (le_rounded h) (rounded_lt hlt.le) (by omega) (Int.add_zero _)

theorem unpack_toFloat {n : Nat} (h : n ≠ 0) (hlt : n < 2 ^ 53) :
    ∃ hm, n.toUInt64.toFloat.toModel.unpack =
      .finite .positive (rounded n) ((n.log2 : Int) - 52) hm := by
  have hlog : n.log2 < 53 := (Nat.log2_lt h).mpr hlt
  have hgt : compare (n : Int) 0 = .gt := Int.compare_eq_gt.mpr (by omega)
  have hcast : n.toUInt64.toNat = n := UInt64.toNat_ofNat_of_lt' (hlt.trans (by decide))
  obtain ⟨hm, hround⟩ := round_of_lt h hlt
  have hmodel : n.toUInt64.toFloat.toModel =
      Float.Model.pack (.finite .positive (rounded n) ((n.log2 : Int) - 52) hm) := by
    change Float.Model.pack
      (UnpackedFloat.normalize Format.binary64 (n.toUInt64.toNat : Int) 0 .positive) = _
    rw [hcast, UnpackedFloat.normalize, hgt, ← hround]
    rfl
  rw [hmodel]
  exact ⟨hm, unpack_pack hm (le_rounded h) (rounded_lt hlt.le) (by omega) (by omega)⟩

theorem ofNat_of_lt {n : Nat} (h : n ≠ 0) (hlt : n < 2 ^ 53) :
    ∃ hm, (Float.ofNat n).toModel.unpack =
      .finite .positive (rounded n) ((n.log2 : Int) - 52) hm := by
  have hlog : n.log2 < 53 := (Nat.log2_lt h).mpr hlt
  have hlower := le_rounded h
  have hupper := rounded_lt hlt.le
  obtain ⟨hm, hunsigned⟩ := unpack_toFloat h hlt
  obtain ⟨hm', hproduct⟩ := roundWithAccuracy_exact (k := 52) (e := (n.log2 : Int) - 52 + -52)
    hlower hupper (by omega) (Int.neg_add_cancel_right _ 52)
  -- small numbers are not scaled by a power of ten but multiplied by one
  have hfast : Float.ofNat n = n.toUInt64.toFloat * Float.ofBits 0x3FF0000000000000 := by
    change Float.ofScientific n false 0 = _
    unfold Float.ofScientific
    rw [dif_pos ⟨hlt, by decide⟩]
    rfl
  refine ⟨hm', ?_⟩
  rw [hfast]
  change (Float.Model.pack (UnpackedFloat.mul Format.binary64 n.toUInt64.toFloat.toModel.unpack
    (Float.ofBits 0x3FF0000000000000).toModel.unpack)).unpack = _
  rw [hunsigned, unpack_one]
  change (Float.Model.pack (roundWithAccuracy Format.binary64 .positive (rounded n * 2 ^ 52)
    ((n.log2 : Int) - 52 + -52) .exact)).unpack = _
  rw [hproduct, unpack_pack hm' hlower hupper (by omega) (by omega)]

theorem ofNat_of_le {n : Nat} (h : 2 ^ 53 ≤ n) (hlt : n < 2 ^ 64) :
    ∃ m e hm, (Float.ofNat n).toModel.unpack = .finite .positive m e hm ∧
      Digits (place n) m e := by
  have hne : n ≠ 0 := by omega
  have hlog : n.log2 < 64 := (Nat.log2_lt hne).mpr hlt
  have hlower := le_rounded hne
  have hupper := rounded_le n
  obtain ⟨m, e, hm, hround, hdigits⟩ := roundWithAccuracy_place hne
  have hmodel : UnpackedFloat.ofScientific Format.binary64 n 0 = .finite .positive m e hm := by
    have hsmall : ¬ (0 : Int) < -(2 ^ 11 + n.log2) := by omega
    unfold UnpackedFloat.ofScientific
    rw [dif_neg hne, if_neg (by decide), if_neg hsmall, if_pos (by decide), ← hround]
    change roundWithAccuracy Format.binary64 .positive (n <<< 53 * 1) (-53) .exact = _
    rw [Nat.mul_one, Nat.shiftLeft_eq]
  have hslow : Float.ofNat n = .ofModel (Float.Model.ofScientific n 0) := by
    change Float.ofScientific n false 0 = _
    unfold Float.ofScientific
    rw [dif_neg (by omega)]
    rfl
  refine ⟨m, e, hm, ?_, hdigits⟩
  rw [hslow]
  change (Float.Model.pack (UnpackedFloat.ofScientific Format.binary64 n 0)).unpack = _
  rw [hmodel]
  obtain ⟨hmlower, hmupper, hplace⟩ := hdigits
  unfold place at hplace
  apply unpack_pack hm hmlower hmupper
  · omega
  · omega

theorem unpack_ofNat {n : Nat} (h : n ≠ 0) (hlt : n < 2 ^ 64) :
    ∃ m e hm, (Float.ofNat n).toModel.unpack = .finite .positive m e hm ∧
      Digits (place n) m e := by
  rcases Nat.lt_or_ge n (2 ^ 53) with hsmall | hlarge
  · obtain ⟨hm, hunpack⟩ := ofNat_of_lt h hsmall
    refine ⟨_, _, hm, hunpack, le_rounded h, rounded_lt hsmall.le, ?_⟩
    unfold place
    omega
  · exact ofNat_of_le hlarge hlt

theorem place_bounds {n : Nat} (h : n ≠ 0) (hlt : n < 2 ^ 64) :
    2 ^ 52 ≤ place n ∧ place n < 65 * 2 ^ 52 + 1 := by
  have hlog : n.log2 < 64 := (Nat.log2_lt h).mpr hlt
  have hlower := le_rounded h
  have hupper := rounded_le n
  unfold place
  omega

def Shows (p : Int) : UnpackedFloat → Prop
  | .zero _ => p = 0
  | .finite .positive m e _ => 0 < p ∧ Digits p m e
  | .finite .negative m e _ => p < 0 ∧ Digits (-p) m e
  | _ => False

def signedPlace (n : Int) : Int := n.sign * place n.natAbs

theorem shows_ofInt {n : Int} (hlt : n.natAbs < 2 ^ 64) :
    Shows (signedPlace n) (Float.ofInt n).toModel.unpack := by
  cases n with
  | ofNat n =>
      change Shows _ (Float.ofNat n).toModel.unpack
      cases n with
      | zero => rfl
      | succ n =>
          have hne : n + 1 ≠ 0 := n.succ_ne_zero
          obtain ⟨m, e, hm, hunpack, hdigits⟩ := unpack_ofNat hne hlt
          have hsigned : signedPlace (Int.ofNat (n + 1)) = place (n + 1) := Int.one_mul _
          have hpos := (place_bounds hne hlt).1
          rw [hunpack, hsigned]
          exact ⟨by omega, hdigits⟩
  | negSucc n =>
      have hne : n + 1 ≠ 0 := n.succ_ne_zero
      obtain ⟨m, e, hm, hunpack, hdigits⟩ := unpack_ofNat hne hlt
      have hsigned : signedPlace (Int.negSucc n) = -place (n + 1) := Int.neg_one_mul _
      have hbounds := place_bounds hne hlt
      obtain ⟨hlower, hupper, hplace⟩ := hdigits
      change Shows _ (Float.Model.pack (Float.ofNat (n + 1)).toModel.unpack.neg).unpack
      rw [hunpack, hsigned]
      change Shows _ (Float.Model.pack (.finite .negative m e hm)).unpack
      rw [unpack_pack hm hlower hupper]
      · exact ⟨by omega, hlower, hupper, by omega⟩
      · omega
      · omega

theorem isLE_of_digits {p q e e' : Int} {m m' : Nat} (h : Digits p m e) (h' : Digits q m' e') :
    ((compare e e').then (compare m m')).isLE = true ↔ p ≤ q := by
  obtain ⟨hlower, hupper, hplace⟩ := h
  obtain ⟨hlower', hupper', hplace'⟩ := h'
  rw [Ordering.isLE_then_iff_or, Int.compare_eq_lt, Int.compare_eq_eq, Nat.isLE_compare]
  omega

theorem le_iff_of_shows {p q : Int} {u v : UnpackedFloat} (hu : Shows p u) (hv : Shows q v) :
    u.le v = true ↔ p ≤ q := by
  cases u with
  | infinity => cases hu
  | notANumber => cases hu
  | zero =>
      obtain rfl : p = 0 := hu
      cases v with
      | infinity => cases hv
      | notANumber => cases hv
      | zero =>
          obtain rfl : q = 0 := hv
          exact iff_of_true rfl le_rfl
      | finite s =>
          cases s with
          | positive => exact iff_of_true rfl hv.1.le
          | negative => exact iff_of_false nofun hv.1.not_ge
  | finite s m e hm =>
      cases v with
      | infinity => cases s <;> cases hv
      | notANumber => cases s <;> cases hv
      | zero =>
          obtain rfl : q = 0 := hv
          cases s with
          | positive => exact iff_of_false nofun hu.1.not_ge
          | negative => exact iff_of_true rfl hu.1.le
      | finite s' m' e' hm' =>
          cases s with
          | positive =>
              cases s' with
              | positive => exact isLE_of_digits hu.2 hv.2
              | negative => exact iff_of_false nofun (hv.1.trans hu.1).not_ge
          | negative =>
              cases s' with
              | positive => exact iff_of_true rfl (hu.1.trans hv.1).le
              | negative =>
                  have hswap := isLE_of_digits hv.2 hu.2
                  rw [← Int.compare_swap, ← Nat.compare_swap, ← Ordering.swap_then,
                    Int.neg_le_neg_iff] at hswap
                  exact hswap

theorem ofInt_le_ofInt {a b : Int} (ha : a.natAbs < 2 ^ 64) (hb : b.natAbs < 2 ^ 64) :
    Float.ofInt a ≤ Float.ofInt b ↔ signedPlace a ≤ signedPlace b := by
  rw [← le_iff_of_shows (shows_ofInt ha) (shows_ofInt hb)]
  exact decide_eq_true_iff

theorem signedPlace_of_nonneg {n : Int} (h : 0 ≤ n) : signedPlace n = place n.natAbs := by
  rcases h.lt_or_eq with hlt | rfl
  · rw [signedPlace, Int.sign_eq_one_of_pos hlt, Int.one_mul]
  · rfl

theorem signedPlace_of_nonpos {n : Int} (h : n ≤ 0) : signedPlace n = -place n.natAbs := by
  rcases h.lt_or_eq with hlt | rfl
  · rw [signedPlace, Int.sign_eq_neg_one_of_neg hlt, Int.neg_one_mul]
  · rfl

theorem signedPlace_mono {a b : Int} (h : a ≤ b) : signedPlace a ≤ signedPlace b := by
  rcases le_total 0 a with ha | ha
  · have hplace : place a.natAbs ≤ place b.natAbs := place_mono (by omega)
    rw [signedPlace_of_nonneg ha, signedPlace_of_nonneg (ha.trans h)]
    omega
  · rw [signedPlace_of_nonpos ha]
    rcases le_total 0 b with hb | hb
    · rw [signedPlace_of_nonneg hb]
      omega
    · have hplace : place b.natAbs ≤ place a.natAbs := place_mono (by omega)
      rw [signedPlace_of_nonpos hb]
      omega

theorem signedPlace_lt {a b : Int} (h : a < b) (ha : a.natAbs ≤ 2 ^ 53) (hb : b.natAbs ≤ 2 ^ 53) :
    signedPlace a < signedPlace b := by
  rcases le_total 0 a with ha' | ha'
  · have hplace : place a.natAbs < place b.natAbs := place_lt (by omega) hb
    rw [signedPlace_of_nonneg ha', signedPlace_of_nonneg (ha'.trans h.le)]
    omega
  · rw [signedPlace_of_nonpos ha']
    rcases le_total 0 b with hb' | hb'
    · have hplace : 0 < place a.natAbs ∨ 0 < place b.natAbs := by
        rcases ha'.lt_or_eq with hlt | rfl
        · exact .inl (place_pos (by omega))
        · exact .inr (place_pos (by omega))
      rw [signedPlace_of_nonneg hb']
      omega
    · have hplace : place b.natAbs < place a.natAbs := place_lt (by omega) ha
      rw [signedPlace_of_nonpos hb']
      omega

end Arbor.Rounding

namespace Arbor.Store

open Rounding

theorem ofInteger_le_ofInteger (lo hi : Int64) : (ofInteger lo : Float) ≤ ofInteger hi ↔
    signedPlace lo.toInt ≤ signedPlace hi.toInt := by
  have hbounds (n : Int64) : n.toInt.natAbs < 2 ^ 64 := by
    have hlower := n.le_toInt
    have hupper := n.toInt_lt
    omega
  exact ofInt_le_ofInt (hbounds lo) (hbounds hi)

/-- Rounding keeps the order of integers. -/
theorem ofInteger_mono {lo hi : Int64} (h : lo ≤ hi) : (ofInteger lo : Float) ≤ ofInteger hi := by
  rw [ofInteger_le_ofInteger]
  exact signedPlace_mono (Int64.le_iff_toInt_le.mp h)

theorem ofInteger_exact {lo hi : Int64} (hlo : lo.toInt.natAbs ≤ 2 ^ 53)
    (hhi : hi.toInt.natAbs ≤ 2 ^ 53) : (ofInteger lo : Float) ≤ ofInteger hi ↔ lo ≤ hi := by
  refine ⟨fun h => ?_, ofInteger_mono⟩
  by_contra hlt
  rw [Int64.not_le, Int64.lt_iff_toInt_lt] at hlt
  have hplace := signedPlace_lt hlt hhi hlo
  rw [ofInteger_le_ofInteger] at h
  omega

end Arbor.Store
