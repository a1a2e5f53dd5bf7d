import Arbor.Proofs.PrintedNumbers

namespace Arbor

/-- A multiple of `10 ^ k` nearest to `v`, the even one of two. -/
structure NearestOn (k : ℤ) (v : ℚ) (n : ℤ) : Prop where
  near : 2 * |v - n * 10 ^ k| ≤ 10 ^ k
  even : 2 * |v - n * 10 ^ k| = 10 ^ k → Even n

structure RoundsOn (p : ℕ) (k : ℤ) (v : ℚ) (n : ℤ) : Prop extends NearestOn k v n where
  lower : 10 ^ (k + p - 1) ≤ |v|
  upper : |v| < 10 ^ (k + p)

/-- `v` rounded to `p` significant digits is `r`. -/
def RoundsTo (p : ℕ) (v r : ℚ) : Prop := ∃ k n, RoundsOn p k v n ∧ r = n * 10 ^ k

namespace NearestOn

variable {k n m : ℤ} {v w : ℚ}

theorem of_multiple (k n : ℤ) : NearestOn k (n * 10 ^ k) n := by
  have hunit : (0 : ℚ) < 10 ^ k := zpow_pos (by norm_num) k
  constructor
  · simpa using hunit.le
  · intro htie
    rw [sub_self, abs_zero, mul_zero] at htie
    exact absurd htie hunit.ne

theorem neg (h : NearestOn k v n) : NearestOn k (-v) (-n) := by
  have habs : |-v - ((-n : ℤ) : ℚ) * 10 ^ k| = |v - n * 10 ^ k| := by
    rw [← abs_neg]
    push_cast
    ring_nf
  exact ⟨habs ▸ h.near, fun htie => (h.even (habs ▸ htie)).neg⟩

/-- Numbers in order round to numbers in order, since of two neighbours only one is even. -/
theorem mono (h : NearestOn k v n) (h' : NearestOn k w m) (hvw : v ≤ w) : n ≤ m := by
  have hunit : (0 : ℚ) < 10 ^ k := zpow_pos (by norm_num) k
  obtain ⟨hnear, heven⟩ := h
  obtain ⟨hnear', heven'⟩ := h'
  generalize (10 : ℚ) ^ k = u at *
  have hv : n * u - v ≤ u / 2 := by linarith [neg_le_abs (v - n * u)]
  have hw : w - m * u ≤ u / 2 := by linarith [le_abs_self (w - m * u)]
  by_contra hlt
  have hnext : n = m + 1 := by
    have hle : (n : ℚ) ≤ m + 1 := le_of_mul_le_mul_right (by linarith) hunit
    have hle' : n ≤ m + 1 := by exact_mod_cast hle
    omega
  subst hnext
  push_cast at hv heven
  -- both are halfway between the two multiples
  have hn : Even (m + 1) := heven (by rw [abs_of_nonpos (by linarith)]; linarith)
  have hm : Even m := heven' (by rw [abs_of_nonneg (by linarith)]; linarith)
  exact Int.even_add_one.mp hn hm

theorem eq_of_close (h : NearestOn k v n) (hclose : 2 * |v - m * 10 ^ k| < 10 ^ k) : n = m := by
  have hunit : (0 : ℚ) < 10 ^ k := zpow_pos (by norm_num) k
  have hnear := h.near
  generalize (10 : ℚ) ^ k = u at *
  have hapart : |((n - m : ℤ) : ℚ)| * u < 1 * u := by
    have hsum := abs_sub_le (n * u) v (m * u)
    rw [abs_sub_comm (n * u) v] at hsum
    rw [← abs_of_pos hunit, ← abs_mul, abs_of_pos hunit]
    push_cast
    rw [sub_mul]
    linarith
  have hlt : |n - m| < 1 := by exact_mod_cast lt_of_mul_lt_mul_right hapart hunit.le
  exact sub_eq_zero.mp (Int.abs_lt_one_iff.mp hlt)

theorem scale {x : ℚ} (h : NearestOn 0 x n) (k : ℤ) : NearestOn k (x * 10 ^ k) n := by
  have hunit : (0 : ℚ) < 10 ^ k := zpow_pos (by norm_num) k
  obtain ⟨hnear, heven⟩ := h
  rw [zpow_zero, mul_one] at hnear heven
  have habs : 2 * |x * 10 ^ k - n * 10 ^ k| = 2 * |x - n| * 10 ^ k := by
    rw [← sub_mul, abs_mul, abs_of_pos hunit, mul_assoc]
  refine ⟨habs ▸ mul_le_of_le_one_left hunit.le hnear, fun htie => heven ?_⟩
  rwa [habs, mul_eq_right₀ hunit.ne'] at htie

end NearestOn

namespace RoundsOn

variable {p : ℕ} {k l n m : ℤ} {v w : ℚ}

theorem neg (h : RoundsOn p k v n) : RoundsOn p k (-v) (-n) :=
  ⟨h.toNearestOn.neg, by rw [abs_neg]; exact h.lower, by rw [abs_neg]; exact h.upper⟩

theorem bounds (h : RoundsOn (p + 1) k v n) (hv : 0 < v) :
    10 ^ p ≤ n ∧ n ≤ 10 ^ (p + 1) := by
  have hpower (q : ℕ) : ((10 ^ q : ℤ) : ℚ) * 10 ^ k = 10 ^ (k + q) := by
    rw [zpow_add₀ (by norm_num), zpow_natCast, mul_comm]
    push_cast
    rfl
  have hlower := h.lower
  have hupper := h.upper
  rw [abs_of_pos hv] at hlower hupper
  constructor
  · refine (NearestOn.of_multiple k _).mono h.toNearestOn ?_
    rw [hpower]
    refine le_trans (zpow_le_zpow_right₀ (by norm_num) ?_) hlower
    push_cast
    omega
  · refine h.toNearestOn.mono (NearestOn.of_multiple k _) ?_
    rw [hpower]
    exact hupper.le

theorem mono_of_pos (h : RoundsOn (p + 1) k v n) (h' : RoundsOn (p + 1) l w m) (hv : 0 < v)
    (hvw : v ≤ w) : (n * 10 ^ k : ℚ) ≤ m * 10 ^ l := by
  have hw := hv.trans_le hvw
  have hlower := h.lower
  have hupper := h'.upper
  rw [abs_of_pos hv] at hlower
  rw [abs_of_pos hw] at hupper
  have hgrids : k ≤ l := by
    have hlt := (hlower.trans hvw).trans_lt hupper
    rw [zpow_lt_zpow_iff_right₀ (by norm_num)] at hlt
    omega
  rcases hgrids.lt_or_eq with hlt | rfl
  · -- there is a power of ten between the two
    have hn : (n : ℚ) ≤ 10 ^ (p + 1 : ℤ) := by exact_mod_cast (h.bounds hv).2
    have hm : (10 : ℚ) ^ (p : ℤ) ≤ m := by exact_mod_cast (h'.bounds hw).1
    calc (n * 10 ^ k : ℚ) ≤ 10 ^ (p + 1 : ℤ) * 10 ^ k := by gcongr
      _ = 10 ^ (p + 1 + k : ℤ) := (zpow_add₀ (by norm_num) ..).symm
      _ ≤ 10 ^ (p + l : ℤ) := zpow_le_zpow_right₀ (by norm_num) (by omega)
      _ = 10 ^ (p : ℤ) * 10 ^ l := zpow_add₀ (by norm_num) ..
      _ ≤ m * 10 ^ l := by gcongr
  · have hnm : (n : ℚ) ≤ m := by exact_mod_cast h.toNearestOn.mono h'.toNearestOn hvw
    gcongr

end RoundsOn

namespace RoundsTo

variable {p : ℕ} {v w r s : ℚ}

theorem neg (h : RoundsTo p v r) : RoundsTo p (-v) (-r) := by
  obtain ⟨k, n, hrounds, rfl⟩ := h
  exact ⟨k, -n, hrounds.neg, by push_cast; ring⟩

theorem nonneg (h : RoundsTo p v r) (hv : 0 ≤ v) : 0 ≤ r := by
  obtain ⟨k, n, hrounds, rfl⟩ := h
  have hn : 0 ≤ n := by
    refine (NearestOn.of_multiple k 0).mono hrounds.toNearestOn ?_
    rwa [Int.cast_zero, zero_mul]
  have hn' : (0 : ℚ) ≤ n := by exact_mod_cast hn
  positivity

theorem nonpos (h : RoundsTo p v r) (hv : v ≤ 0) : r ≤ 0 :=
  neg_nonneg.mp (h.neg.nonneg (neg_nonneg.mpr hv))

theorem mono_of_pos (h : RoundsTo (p + 1) v r) (h' : RoundsTo (p + 1) w s) (hv : 0 < v)
    (hvw : v ≤ w) : r ≤ s := by
  obtain ⟨k, n, hrounds, rfl⟩ := h
  obtain ⟨l, m, hrounds', rfl⟩ := h'
  exact hrounds.mono_of_pos hrounds' hv hvw

theorem mono (h : RoundsTo (p + 1) v r) (h' : RoundsTo (p + 1) w s) (hvw : v ≤ w) : r ≤ s := by
  rcases lt_or_ge 0 v with hv | hv
  · exact h.mono_of_pos h' hv hvw
  rcases lt_or_ge w 0 with hw | hw
  · exact neg_le_neg_iff.mp (h'.neg.mono_of_pos h.neg (neg_pos.mpr hw) (neg_le_neg hvw))
  · exact (h.nonpos hv).trans (h'.nonneg hw)

end RoundsTo

theorem roundHalfEven_nearest (num : ℕ) {den : ℕ} (hden : 0 < den) :
    NearestOn 0 (num / den) (roundHalfEven num den) := by
  have hpos : (0 : ℚ) < den := by exact_mod_cast hden
  have hsplit : (num : ℚ) / den = (num / den : ℕ) + (num % den : ℕ) / den := by
    field_simp
    exact_mod_cast (Nat.div_add_mod num den).symm
  have hpart : 0 ≤ ((num % den : ℕ) : ℚ) / den := by positivity
  have hwhole : ((num % den : ℕ) : ℚ) / den < 1 := by
    rw [div_lt_one hpos]
    exact_mod_cast Nat.mod_lt num hden
  have htwice : 2 * (((num % den : ℕ) : ℚ) / den) = (2 * (num % den) : ℕ) / den := by
    push_cast
    ring
  suffices h : 2 * |(num : ℚ) / den - roundHalfEven num den| ≤ 1 ∧
      (2 * |(num : ℚ) / den - roundHalfEven num den| = 1 → Even (roundHalfEven num den)) by
    refine ⟨by simpa using h.1, fun htie => ?_⟩
    exact_mod_cast h.2 (by simpa using htie)
  rw [hsplit, roundHalfEven]
  generalize num / den = q at *
  generalize ((num % den : ℕ) : ℚ) / den = part at *
  cases hc : compare (2 * (num % den)) den with
  | lt =>
      have hlt : 2 * part < 1 := by
        rw [htwice, div_lt_one hpos]
        exact_mod_cast Nat.compare_eq_lt.mp hc
      dsimp only
      rw [add_sub_cancel_left, abs_of_nonneg hpart]
      exact ⟨hlt.le, fun htie => absurd htie hlt.ne⟩
  | gt =>
      have hgt : 1 < 2 * part := by
        rw [htwice, one_lt_div hpos]
        exact_mod_cast Nat.compare_eq_gt.mp hc
      dsimp only
      rw [abs_of_nonpos (by push_cast; linarith)]
      push_cast
      exact ⟨by linarith, fun htie => by linarith⟩
  | eq =>
      have hhalf : 2 * part = 1 := by
        rw [htwice, div_eq_one_iff_eq hpos.ne']
        exact_mod_cast Nat.compare_eq_eq.mp hc
      have heven : Even (q + q % 2) := by
        rw [Nat.even_iff]
        omega
      refine ⟨?_, fun _ => heven⟩
      dsimp only
      rcases Nat.mod_two_eq_zero_or_one q with hq | hq <;> rw [hq]
      · rw [abs_of_nonneg (by push_cast; linarith)]
        push_cast
        linarith
      · rw [abs_of_nonpos (by push_cast; linarith)]
        push_cast
        linarith

theorem leadingExponent_bounds {num den : ℕ} (hnum : 0 < num) (hden : 0 < den) :
    (10 : ℚ) ^ leadingExponent num den ≤ num / den ∧
      (num / den : ℚ) < 10 ^ (leadingExponent num den + 1) := by
  have hpos : (0 : ℚ) < den := by exact_mod_cast hden
  rw [leadingExponent]
  split
  next hle =>
    have hcount := digitCount_pos (num / den)
    have hlower : 10 ^ (digitCount (num / den) - 1) * den ≤ num :=
      (Nat.le_div_iff_mul_le hden).mp (pow_digitCount_le (Nat.div_pos hle hden).ne')
    have hupper : num < 10 ^ digitCount (num / den) * den :=
      (Nat.div_lt_iff_lt_mul hden).mp (lt_pow_digitCount _)
    have hexponent : (digitCount (num / den) : ℤ) - 1 = (digitCount (num / den) - 1 : ℕ) := by omega
    rw [le_div_iff₀ hpos, div_lt_iff₀ hpos, sub_add_cancel, hexponent, zpow_natCast, zpow_natCast]
    exact ⟨by exact_mod_cast hlower, by exact_mod_cast hupper⟩
  next hlt =>
    have hcount := digitCount_pos ((den - 1) / num)
    have hlower : 10 ^ (digitCount ((den - 1) / num) - 1) * num ≤ den - 1 :=
      (Nat.le_div_iff_mul_le hnum).mp (pow_digitCount_le (Nat.div_pos (by omega) hnum).ne')
    have hupper : den - 1 < 10 ^ digitCount ((den - 1) / num) * num :=
      (Nat.div_lt_iff_lt_mul hnum).mp (lt_pow_digitCount _)
    have hexponent : -(digitCount ((den - 1) / num) : ℤ) + 1 =
        -(digitCount ((den - 1) / num) - 1 : ℕ) := by omega
    rw [le_div_iff₀ hpos, div_lt_iff₀ hpos, hexponent, zpow_neg, zpow_neg, zpow_natCast,
      zpow_natCast, inv_mul_le_iff₀ (by positivity), lt_inv_mul_iff₀ (by positivity)]
    constructor
    · exact_mod_cast (by omega : den ≤ 10 ^ digitCount ((den - 1) / num) * num)
    · exact_mod_cast (by omega : 10 ^ (digitCount ((den - 1) / num) - 1) * num < den)

namespace Decimal

variable {num den : ℕ}

theorem nearest_nearestOn (num : ℕ) (hden : 0 < den) (k : ℤ) :
    NearestOn k (num / den) (nearest num den k).digits := by
  have hdpos : (den : ℚ) ≠ 0 := by exact_mod_cast hden.ne'
  have hscaled : ((num * 10 ^ (-k).toNat : ℕ) : ℚ) / (den * 10 ^ k.toNat : ℕ) * 10 ^ k =
      num / den := by
    push_cast
    rw [Rounding.pow_toNat (by norm_num) k]
    field_simp
  have hgrid : 0 < den * 10 ^ k.toNat := Nat.mul_pos hden (Nat.pow_pos (by decide))
  have hnearest := (roundHalfEven_nearest (num * 10 ^ (-k).toNat) hgrid).scale k
  rwa [hscaled] at hnearest

theorem significant_roundsOn (p : ℕ) (hnum : 0 < num) (hden : 0 < den) :
    RoundsOn p (significant p num den).exponent (num / den) (significant p num den).digits := by
  obtain ⟨hlower, hupper⟩ := leadingExponent_bounds hnum hden
  have hexponent : (significant p num den).exponent = leadingExponent num den + 1 - p := rfl
  have habs : |(num / den : ℚ)| = num / den := abs_of_nonneg (by positivity)
  refine ⟨nearest_nearestOn num hden _, ?_, ?_⟩
  · rwa [habs, hexponent, sub_add_cancel, add_sub_cancel_right]
  · rwa [habs, hexponent, sub_add_cancel]

theorem significant_bounds (p : ℕ) (hnum : 0 < num) (hden : 0 < den) :
    10 ^ p ≤ (significant (p + 1) num den).digits ∧
      (significant (p + 1) num den).digits ≤ 10 ^ (p + 1) := by
  have hbounds := (significant_roundsOn (p + 1) hnum hden).bounds (by positivity)
  exact_mod_cast hbounds

theorem leading_bounds {d : Decimal} (hd : d.digits ≠ 0) :
    10 ^ d.leading ≤ d.value ∧ d.value < 10 ^ (d.leading + 1) := by
  have hcount := digitCount_pos d.digits
  have hlower : (10 : ℚ) ^ (digitCount d.digits - 1) ≤ d.digits := by
    exact_mod_cast pow_digitCount_le hd
  have hupper : (d.digits : ℚ) < 10 ^ digitCount d.digits := by
    exact_mod_cast lt_pow_digitCount d.digits
  have hleading : d.leading = (digitCount d.digits - 1 : ℕ) + d.exponent := by
    rw [leading]
    omega
  have hnext : d.leading + 1 = (digitCount d.digits : ℕ) + d.exponent := by omega
  rw [hnext, hleading, zpow_add₀ (by norm_num), zpow_add₀ (by norm_num), zpow_natCast,
    zpow_natCast, value]
  exact ⟨by gcongr, by gcongr⟩

theorem digitCount_eq {n p : ℕ} (hlower : 10 ^ p ≤ n) (hupper : n < 10 ^ (p + 1)) :
    digitCount n = p + 1 := by
  have hn : n ≠ 0 := (Nat.pow_pos (by decide) |>.trans_le hlower).ne'
  have hcount := digitCount_pos n
  have hle := (Nat.pow_lt_pow_iff_right (by decide)).mp ((pow_digitCount_le hn).trans_lt hupper)
  have hge := (Nat.pow_lt_pow_iff_right (by decide)).mp (hlower.trans_lt (lt_pow_digitCount n))
  omega

/-- Rounding once more, on the grid of the leading digit of the rounded number, changes nothing. -/
theorem nearest_value (p : ℕ) (hnum : 0 < num) (hden : 0 < den) :
    (nearest num den ((significant (p + 1) num den).leading - p)).value =
      (significant (p + 1) num den).value := by
  obtain ⟨hlower, hupper⟩ := significant_bounds p hnum hden
  have hrounds := significant_roundsOn (p + 1) hnum hden
  have hsame : significant (p + 1) num den =
    nearest num den (significant (p + 1) num den).exponent := rfl
  generalize significant (p + 1) num den = d at *
  obtain ⟨digits, k⟩ := d
  dsimp only at *
  rcases hupper.lt_or_eq with hlt | rfl
  · have hgrid : (⟨digits, k⟩ : Decimal).leading - p = k := by
      rw [leading, digitCount_eq hlower hlt]
      push_cast
      ring
    rw [hgrid, hsame]
  · -- the carry leaves the number close to a multiple of the coarser unit
    have hgrid : (⟨10 ^ (p + 1), k⟩ : Decimal).leading - p = k + 1 := by
      rw [leading, digitCount_eq (p := p + 1) le_rfl (Nat.pow_lt_pow_succ (by decide))]
      push_cast
      ring
    have hunit : (10 : ℚ) ^ (k + 1) = 10 ^ k * 10 := zpow_add_one₀ (by norm_num) k
    have hvalue : ((10 ^ (p + 1) : ℕ) : ℚ) * 10 ^ k = (10 ^ p : ℤ) * 10 ^ (k + 1) := by
      rw [hunit]
      push_cast
      ring
    have hclose : 2 * |(num / den : ℚ) - (10 ^ p : ℤ) * 10 ^ (k + 1)| < 10 ^ (k + 1) := by
      have hpos : (0 : ℚ) < 10 ^ k := zpow_pos (by norm_num) k
      have hnear := hrounds.near
      rw [Int.cast_natCast, hvalue] at hnear
      linarith
    have hdigits := (nearest_nearestOn num hden (k + 1)).eq_of_close hclose
    have hdigits' : ((nearest num den (k + 1)).digits : ℚ) = (10 ^ p : ℤ) := by
      exact_mod_cast hdigits
    rw [hgrid, value, value, hdigits', hvalue]
    rfl

end Decimal

end Arbor
