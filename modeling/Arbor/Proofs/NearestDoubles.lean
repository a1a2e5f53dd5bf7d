import Arbor.Decimal.Rounding
import Arbor.Proofs.RoundedIntegers

namespace Arbor.Rounding

open Float.Model Float.Model.UnpackedFloat

def quotientBits (n d : Nat) : Nat := 2 * (2 * n / d) + if 2 * n % d = 0 then 0 else 1

theorem quotientBits_eq {n d a r : Nat} (h : r + d * a = 2 * n) (hr : r < d) :
    quotientBits n d = 2 * a + if r = 0 then 0 else 1 := by
  obtain ⟨ha, hr⟩ := (Nat.div_mod_unique (Nat.zero_lt_of_lt hr)).mpr ⟨h, hr⟩
  rw [quotientBits, ha, hr]

theorem quotientBits_half {n d : Nat} (hd : 0 < d) :
    quotientBits n (d * 2) = quotientBits n d / 4 * 2 + min (quotientBits n d % 4) 1 := by
  have hn := Nat.mod_add_div (2 * n) d
  have hr := Nat.mod_lt (2 * n) hd
  have ha := Nat.mod_add_div (2 * n / d) 2
  have hhalf : 2 * n % d + d * (2 * n / d % 2) + d * 2 * (2 * n / d / 2) = 2 * n := by
    rw [Nat.add_assoc, Nat.mul_assoc, ← Nat.mul_add, ha, hn]
  rcases Nat.mod_two_eq_zero_or_one (2 * n / d) with hparity | hparity
  · rw [hparity] at hhalf
    rw [quotientBits_eq hhalf (by omega), quotientBits]
    split <;> split <;> omega
  · rw [hparity] at hhalf
    rw [quotientBits_eq hhalf (by omega), quotientBits]
    split <;> split <;> omega

theorem bits_shiftRight {em : ExtendedMantissa} {n d : Nat} (hd : 0 < d)
    (h : bits em = quotientBits n d) (k : Nat) :
    bits (em >>> k) = quotientBits n (d * 2 ^ k) := by
  induction k with
  | zero => rwa [Nat.pow_zero, Nat.mul_one]
  | succ k ih =>
      have hstep : bits (em >>> (k + 1)) = bits (em >>> k).shiftRightOne := rfl
      rw [hstep, bits_shiftRightOne, ih, Nat.pow_succ, ← Nat.mul_assoc,
        quotientBits_half (Nat.mul_pos hd (Nat.two_pow_pos k))]

theorem quotientBits_cases (n : Nat) {d : Nat} (hd : 0 < d) :
    quotientBits n d = 4 * (n / d) + match compare (2 * (n % d)) d with
      | .lt => if n % d = 0 then 0 else 1
      | .eq => 2
      | .gt => 3 := by
  have hn := Nat.mod_add_div n d
  have hr := Nat.mod_lt n hd
  have htwice : 2 * (n % d) + d * (2 * (n / d)) = 2 * n := by
    rw [Nat.mul_left_comm, ← Nat.mul_add, hn]
  cases hc : compare (2 * (n % d)) d with
  | lt =>
      have hlt := Nat.compare_eq_lt.mp hc
      rw [quotientBits_eq htwice hlt]
      simp only [Nat.mul_eq_zero, OfNat.ofNat_ne_zero, false_or]
      omega
  | eq =>
      have heq := Nat.compare_eq_eq.mp hc
      have hnext : 0 + d * (2 * (n / d) + 1) = 2 * n := by
        rw [← htwice, heq, Nat.mul_add]
        omega
      rw [quotientBits_eq hnext hd]
      simp only [if_true]
      omega
  | gt =>
      have hgt := Nat.compare_eq_gt.mp hc
      have hnext : 2 * (n % d) - d + d * (2 * (n / d) + 1) = 2 * n := by
        rw [← htwice, Nat.mul_add]
        omega
      rw [quotientBits_eq hnext (by omega), if_neg (by omega)]
      dsimp only
      omega

theorem bits_quotient (n : Nat) {d : Nat} (hd : 0 < d) :
    bits (.ofMantissaAndAccuracy (n / d) (accuracyOfFraction (n % d) d)) = quotientBits n d := by
  rw [quotientBits_cases n hd, accuracyOfFraction]
  by_cases hzero : n % d = 0
  · have hlt : compare (2 * (n % d)) d = .lt := Nat.compare_eq_lt.mpr (by omega)
    rw [hlt, if_pos hzero]
    simp [hzero, ExtendedMantissa.ofMantissaAndAccuracy, bits]
  · rw [if_neg hzero, if_neg hzero]
    cases compare (2 * (n % d)) d <;> rfl

theorem roundedMantissa_quotient {em : ExtendedMantissa} {n d : Nat} (hd : 0 < d)
    (h : bits em = quotientBits n d) : em.roundedMantissa = roundHalfEven n d := by
  rw [roundedMantissa_eq, mantissa_eq, h, quotientBits_cases n hd, roundHalfEven]
  have hmantissa (k : Nat) (hk : k < 4) : (4 * (n / d) + k) / 4 = n / d := by omega
  cases compare (2 * (n % d)) d with
  | lt =>
      dsimp only
      split
      · rw [hmantissa 0 (by decide)]
        omega
      · rw [hmantissa 1 (by decide)]
        omega
  | eq =>
      dsimp only
      rw [hmantissa 2 (by decide)]
      omega
  | gt =>
      dsimp only
      rw [hmantissa 3 (by decide)]
      omega

theorem roundHalfEven_eq {n d m : Nat} (hd : 0 < d) (hlower : 2 * m * d ≤ 2 * n + d)
    (hupper : 2 * n ≤ (2 * m + 1) * d)
    (htie : 2 * n + d = 2 * m * d ∨ 2 * n = (2 * m + 1) * d → m % 2 = 0) :
    roundHalfEven n d = m := by
  have hn := Nat.mod_add_div n d
  have hr := Nat.mod_lt n hd
  rw [roundHalfEven]
  generalize n / d = q at *
  generalize n % d = r at *
  subst hn
  have hle : q ≤ m := by
    have hmul : d * (2 * q) < d * (2 * m + 2) := by nlinarith
    have hlt := Nat.lt_of_mul_lt_mul_left hmul
    omega
  have hge : m ≤ q + 1 := by
    have hmul : d * (2 * m) < d * (2 * q + 3) := by nlinarith
    have hlt := Nat.lt_of_mul_lt_mul_left hmul
    omega
  have hproduct : d * (q + 1) = d * q + d := Nat.mul_succ d q
  rcases Nat.lt_or_eq_of_le hle with hlt | rfl
  · obtain rfl : m = q + 1 := by omega
    cases hc : compare (2 * r) d with
    | lt =>
        have hlt := Nat.compare_eq_lt.mp hc
        nlinarith
    | eq =>
        have heq := Nat.compare_eq_eq.mp hc
        have heven := htie (.inl (by nlinarith))
        dsimp only
        omega
    | gt => rfl
  · cases hc : compare (2 * r) d with
    | lt => rfl
    | eq =>
        have heq := Nat.compare_eq_eq.mp hc
        have heven := htie (.inr (by nlinarith))
        dsimp only
        omega
    | gt =>
        have hgt := Nat.compare_eq_gt.mp hc
        nlinarith

/-- A positive mantissa and its exponent, as a finite double has them. -/
structure Canonical (m : Nat) (e : Int) : Prop where
  pos : 0 < m
  upper : m < 2 ^ 53
  least : -1074 ≤ e
  greatest : e ≤ 971
  normal : 2 ^ 52 ≤ m ∨ e = -1074

/-- The numbers that are nearest to `m * 2 ^ e`, or as near as to a neighbour with an odd mantissa.
The neighbour below a power of two is half as far away as the one above. -/
structure Near (v : ℚ) (m : Nat) (e : Int) : Prop where
  lower : (m - 1 / 2) * 2 ^ e ≤ v
  upper : v ≤ (m + 1 / 2) * 2 ^ e
  tie : v = (m - 1 / 2) * 2 ^ e ∨ v = (m + 1 / 2) * 2 ^ e → m % 2 = 0
  crowded : m = 2 ^ 52 → -1074 < e → (m - 1 / 4) * 2 ^ e ≤ v

theorem roundHalfEven_near {n d k m : Nat} {e e' : Int} (hd : 0 < d) (he : e + k = e')
    (hlower : ((m : ℚ) - 1 / 2) * 2 ^ e' ≤ n / d * 2 ^ e)
    (hupper : (n / d * 2 ^ e : ℚ) ≤ (m + 1 / 2) * 2 ^ e')
    (htie : (n / d * 2 ^ e : ℚ) = (m - 1 / 2) * 2 ^ e' ∨
      (n / d * 2 ^ e : ℚ) = (m + 1 / 2) * 2 ^ e' → m % 2 = 0) :
    roundHalfEven n (d * 2 ^ k) = m := by
  have hdpos : (0 : ℚ) < d := by exact_mod_cast hd
  have hpow : (0 : ℚ) < 2 ^ e := zpow_pos (by norm_num) e
  have hunit (c : ℚ) : c * 2 ^ e' = c * (d * 2 ^ k) / d * 2 ^ e := by
    rw [← he, zpow_add₀ (by norm_num), zpow_natCast]
    field_simp
  have hle (a b : ℚ) : a / d * 2 ^ e ≤ b / d * 2 ^ e ↔ a ≤ b := by
    rw [mul_le_mul_iff_left₀ hpow, div_le_div_iff_of_pos_right hdpos]
  have heq (a b : ℚ) : a / d * 2 ^ e = b / d * 2 ^ e ↔ a = b := by
    rw [mul_left_inj' hpow.ne', div_left_inj' hdpos.ne']
  rw [hunit, hle] at hlower
  rw [hunit, hle] at hupper
  rw [hunit, hunit, heq, heq] at htie
  apply roundHalfEven_eq (Nat.mul_pos hd (Nat.two_pow_pos k))
  · have h : (2 * m * (d * 2 ^ k) : ℚ) ≤ 2 * n + d * 2 ^ k := by linarith
    exact_mod_cast h
  · have h : (2 * n : ℚ) ≤ (2 * m + 1) * (d * 2 ^ k) := by linarith
    exact_mod_cast h
  · rintro (h | h)
    · refine htie (.inl ?_)
      have h' : (2 * n + d * 2 ^ k : ℚ) = 2 * m * (d * 2 ^ k) := by exact_mod_cast h
      linarith
    · refine htie (.inr ?_)
      have h' : (2 * n : ℚ) = (2 * m + 1) * (d * 2 ^ k) := by exact_mod_cast h
      linarith

theorem quotient_lt {n d : Nat} (hd : 0 < d) (e : Int) :
    (n / d * 2 ^ e : ℚ) < 2 ^ ((n / d).log2 + 1 + e : Int) := by
  have hdpos : (0 : ℚ) < d := by exact_mod_cast hd
  have hlt : n < 2 ^ ((n / d).log2 + 1) * d := by
    calc n < (n / d + 1) * d := Nat.lt_mul_of_div_lt (Nat.lt_succ_self _) hd
      _ ≤ 2 ^ ((n / d).log2 + 1) * d := Nat.mul_le_mul_right d Nat.lt_log2_self
  have hcast : (n / d : ℚ) < 2 ^ ((n / d).log2 + 1) := by
    rw [div_lt_iff₀ hdpos]
    exact_mod_cast hlt
  rw [zpow_add₀ (by norm_num)]
  exact mul_lt_mul_of_pos_right (by exact_mod_cast hcast) (zpow_pos (by norm_num) e)

theorem le_quotient {n d : Nat} (hn : n / d ≠ 0) (e : Int) :
    (2 ^ ((n / d).log2 + e : Int) : ℚ) ≤ n / d * 2 ^ e := by
  have hle : ((2 ^ (n / d).log2 : Nat) : ℚ) ≤ n / d :=
    (Nat.cast_le.mpr (Nat.log2_self_le hn)).trans Nat.cast_div_le
  rw [zpow_add₀ (by norm_num)]
  exact mul_le_mul_of_nonneg_right (by exact_mod_cast hle) (zpow_pos (by norm_num) e).le

theorem Near.le_of_lt {x : ℚ} {m k : Nat} {e : Int} (h : Near x m e) (hx : x < k * 2 ^ e) :
    m ≤ k := by
  have hpow : (0 : ℚ) < 2 ^ e := zpow_pos (by norm_num) e
  have hlt : (m : ℚ) < k + 1 := by
    have hbelow := lt_of_mul_lt_mul_right (h.lower.trans_lt hx) hpow.le
    linarith
  have hnat : m < k + 1 := by exact_mod_cast hlt
  omega

theorem least_of_fraction {n d m : Nat} {e e' : Int} (hd : 0 < d) (hm : Canonical m e')
    (hnear : Near (n / d * 2 ^ e) m e') (hzero : n / d = 0) (he : e ≤ -1074) : e' = -1074 := by
  have hdpos : (0 : ℚ) < d := by exact_mod_cast hd
  have hquotient : (n / d : ℚ) < 1 := by
    rw [div_lt_one hdpos]
    exact_mod_cast (Nat.div_eq_zero_iff_lt hd).mp hzero
  have hle : (2 : ℚ) ^ e ≤ 2 ^ e' := by
    rw [zpow_le_zpow_iff_right₀ (by norm_num)]
    exact he.trans hm.least
  have hmle : m ≤ 1 := hnear.le_of_lt <| by
    rw [Nat.cast_one, one_mul]
    exact (mul_lt_of_lt_one_left (zpow_pos (by norm_num) e) hquotient).trans_le hle
  rcases hm.normal with hnormal | hleast
  · omega
  · exact hleast

theorem target_near {n d m : Nat} {e e' : Int} (hd : 0 < d) (hm : Canonical m e')
    (hnear : Near (n / d * 2 ^ e) m e')
    (he : e ≤ Format.binary64.targetExponent (totalExponent (n / d) e)) :
    Format.binary64.targetExponent (totalExponent (n / d) e) = e' ∨
      Format.binary64.targetExponent (totalExponent (n / d) e) = e' - 1 ∧ m = 2 ^ 52 ∧
        (n / d * 2 ^ e : ℚ) < 2 ^ (52 + e') := by
  have htarget : Format.binary64.targetExponent (totalExponent (n / d) e) =
      max ((n / d).log2 + 1 + e - 53) (-1074) := rfl
  have hpow : (0 : ℚ) < 2 ^ e' := zpow_pos (by norm_num) e'
  have hmupper : ((m : ℚ) + 1) ≤ 9007199254740992 := by exact_mod_cast hm.upper
  rw [htarget] at he ⊢
  by_cases hzero : n / d = 0
  · rw [hzero, Nat.log2_zero] at he ⊢
    have hleast := least_of_fraction hd hm hnear hzero (by omega)
    left
    omega
  have hlower := le_quotient hzero e
  have hupper := quotient_lt (n := n) hd e
  have hlt : (2 : ℚ) ^ ((n / d).log2 + e : Int) < 2 ^ (53 + e') := by
    refine (hlower.trans hnear.upper).trans_lt ?_
    rw [zpow_add₀ (by norm_num)]
    exact mul_lt_mul_of_pos_right (by norm_num; linarith) hpow
  rw [zpow_lt_zpow_iff_right₀ (by norm_num)] at hlt
  rcases hm.normal with hnormal | rfl
  · have hmlower : (4503599627370496 : ℚ) ≤ m := by exact_mod_cast hnormal
    have hgt : (2 : ℚ) ^ (51 + e') < 2 ^ ((n / d).log2 + 1 + e : Int) := by
      refine lt_of_lt_of_le ?_ hupper.le
      refine lt_of_lt_of_le ?_ hnear.lower
      rw [zpow_add₀ (by norm_num)]
      exact mul_lt_mul_of_pos_right (by norm_num; linarith) hpow
    rw [zpow_lt_zpow_iff_right₀ (by norm_num)] at hgt
    have hleast := hm.least
    by_cases hsame : max ((n / d).log2 + 1 + e - 53) (-1074) = e'
    · exact .inl hsame
    · -- the quotient lies just below a power of two, to which it rounds
      have hexponent : ((n / d).log2 + 1 + e : Int) = 52 + e' := by omega
      rw [hexponent] at hupper
      have hmle : m ≤ 2 ^ 52 := hnear.le_of_lt <| by
        refine hupper.trans_eq ?_
        rw [zpow_add₀ (by norm_num)]
        norm_cast
      exact .inr ⟨by omega, by omega, hupper⟩
  · left
    omega

theorem roundWithAccuracy_eq {n m : Nat} {e e' : Int} {accuracy : Accuracy}
    {first : ExtendedMantissa × Int} (hm : 0 < m)
    (hfirst : shiftToTargetExponent Format.binary64 n e accuracy = first)
    (hsecond : shiftToTargetExponent Format.binary64 first.1.roundedMantissa first.2 .exact =
      (⟨m, false, false⟩, e')) :
    roundWithAccuracy Format.binary64 .positive n e accuracy = .finite .positive m e' hm := by
  have hround : roundWithAccuracy Format.binary64 .positive n e accuracy =
      let second := shiftToTargetExponent Format.binary64 first.1.roundedMantissa first.2 .exact
      if h : second.1.mantissa = 0 then .zero .positive
      else .finite .positive second.1.mantissa second.2 (Nat.pos_of_ne_zero h) := by
    rw [← hfirst]
    rfl
  rw [hround, hsecond]
  exact dif_neg hm.ne'

theorem Canonical.shift {m : Nat} {e : Int} (h : Canonical m e) :
    shiftToTargetExponent Format.binary64 m e .exact = (⟨m, false, false⟩, e) := by
  have htarget : Format.binary64.targetExponent (totalExponent m e) = e := by
    have hlog : m.log2 < 53 := (Nat.log2_lt h.pos.ne').mpr h.upper
    have hleast := h.least
    have hvalue : Format.binary64.targetExponent (totalExponent m e) =
      max (m.log2 + 1 + e - 53) (-1074) := rfl
    rw [hvalue]
    rcases h.normal with hnormal | rfl
    · have hge : 52 ≤ m.log2 := (Nat.le_log2 h.pos.ne').mpr hnormal
      omega
    · omega
  rw [shiftToTargetExponent, htarget, shiftToExponent]
  simp only [sub_self, Int.toNat_zero, ExtendedMantissa.ofMantissaAndAccuracy]
  rw [Nat.cast_zero, add_zero]
  rfl

/-- A quotient is rounded to the double that it is near to. -/
theorem roundWithAccuracy_near {n d m : Nat} {e e' : Int} (hd : 0 < d) (hm : Canonical m e')
    (hnear : Near (n / d * 2 ^ e) m e')
    (he : e ≤ Format.binary64.targetExponent (totalExponent (n / d) e)) :
    roundWithAccuracy Format.binary64 .positive (n / d) e (accuracyOfFraction (n % d) d) =
      .finite .positive m e' hm.pos := by
  have htarget := target_near hd hm hnear he
  have hfirst : shiftToTargetExponent Format.binary64 (n / d) e (accuracyOfFraction (n % d) d) =
      shiftToExponent (n / d) e (accuracyOfFraction (n % d) d)
        (Format.binary64.targetExponent (totalExponent (n / d) e)) := rfl
  have hleast : -1074 ≤ Format.binary64.targetExponent (totalExponent (n / d) e) :=
    le_max_right _ _
  generalize Format.binary64.targetExponent (totalExponent (n / d) e) = target at *
  obtain ⟨k, hk⟩ := Int.le.dest he
  have hshift : (target - e).toNat = k := by omega
  have hrounded : ((ExtendedMantissa.ofMantissaAndAccuracy (n / d)
      (accuracyOfFraction (n % d) d)) >>> k).roundedMantissa = roundHalfEven n (d * 2 ^ k) :=
    roundedMantissa_quotient (Nat.mul_pos hd (Nat.two_pow_pos k))
      (bits_shiftRight hd (bits_quotient n hd) k)
  rw [shiftToExponent, hshift, hk] at hfirst
  rcases htarget with rfl | ⟨rfl, rfl, hlt⟩
  · refine roundWithAccuracy_eq hm.pos hfirst ?_
    dsimp only
    rw [hrounded, roundHalfEven_near hd hk hnear.lower hnear.upper hnear.tie]
    exact hm.shift
  · -- the power of two is reached from below, with one bit too many
    have hpow : (2 : ℚ) ^ e' = 2 * 2 ^ (e' - 1) := by
      rw [← zpow_one_add₀ (by norm_num), add_sub_cancel]
    have hlower : (((2 ^ 53 : Nat) : ℚ) - 1 / 2) * 2 ^ (e' - 1) ≤ n / d * 2 ^ e := by
      have hcrowded := hnear.crowded rfl (by omega)
      rw [hpow] at hcrowded
      refine le_trans (le_of_eq ?_) hcrowded
      push_cast
      ring
    have hupper : (n / d * 2 ^ e : ℚ) ≤ ((2 ^ 53 : Nat) + 1 / 2) * 2 ^ (e' - 1) := by
      have hpos : (0 : ℚ) < 2 ^ (e' - 1) := zpow_pos (by norm_num) _
      rw [zpow_add₀ (by norm_num), hpow] at hlt
      norm_num at hlt ⊢
      linarith
    refine roundWithAccuracy_eq hm.pos hfirst ?_
    dsimp only
    rw [hrounded, roundHalfEven_near hd hk hlower hupper fun _ => rfl,
      shiftToTargetExponent_eq 1 Nat.log2_two_pow (by omega)]
    have hhalf : ((⟨2 ^ 53, false, false⟩ : ExtendedMantissa) >>> 1) = ⟨2 ^ 52, false, false⟩ := rfl
    rw [hhalf]
    norm_num

theorem mul_near {m₁ m₂ m : Nat} {e₁ e₂ e : Int} {h₁ : 0 < m₁} {h₂ : 0 < m₂}
    (hlarge : 2 ^ 52 ≤ m₁ * m₂) (hm : Canonical m e)
    (hnear : Near (m₁ * 2 ^ e₁ * (m₂ * 2 ^ e₂)) m e) :
    UnpackedFloat.mul Format.binary64 (.finite .positive m₁ e₁ h₁) (.finite .positive m₂ e₂ h₂) =
      .finite .positive m e hm.pos := by
  have hlog : 52 ≤ (m₁ * m₂).log2 := (Nat.le_log2 (Nat.mul_pos h₁ h₂).ne').mpr hlarge
  have hvalue : ((m₁ * m₂ : Nat) / (1 : Nat) * 2 ^ (e₁ + e₂) : ℚ) =
      m₁ * 2 ^ e₁ * (m₂ * 2 ^ e₂) := by
    rw [zpow_add₀ (by norm_num)]
    push_cast
    ring
  have htarget : e₁ + e₂ ≤
      Format.binary64.targetExponent (totalExponent (m₁ * m₂ / 1) (e₁ + e₂)) := by
    have hle : ((m₁ * m₂).log2 + 1 + (e₁ + e₂) - 53 : Int) ≤
        Format.binary64.targetExponent (totalExponent (m₁ * m₂ / 1) (e₁ + e₂)) := by
      rw [Nat.div_one]
      exact le_max_left _ _
    omega
  have hround := roundWithAccuracy_near Nat.one_pos hm (hvalue.symm ▸ hnear) htarget
  rw [Nat.div_one, Nat.mod_one] at hround
  exact hround

theorem div_near {m₁ m₂ m : Nat} {e₁ e₂ e : Int} {h₁ : 0 < m₁} {h₂ : 0 < m₂} (hm : Canonical m e)
    (hnear : Near (m₁ * 2 ^ e₁ / (m₂ * 2 ^ e₂)) m e) :
    UnpackedFloat.div Format.binary64 (.finite .positive m₁ e₁ h₁) (.finite .positive m₂ e₂ h₂) =
      .finite .positive m e hm.pos := by
  have htotal : Format.binary64.targetExponent (totalExponent m₁ e₁ - totalExponent m₂ e₂) =
      max (m₁.log2 + 1 + e₁ - (m₂.log2 + 1 + e₂) - 53) (-1074) := rfl
  generalize hunit : min (e₁ - e₂)
    (Format.binary64.targetExponent (totalExponent m₁ e₁ - totalExponent m₂ e₂)) = unit
  obtain ⟨k, hk⟩ : ∃ k : Nat, (k : Int) = e₁ - e₂ - unit := ⟨(e₁ - e₂ - unit).toNat, by omega⟩
  have hdiv : UnpackedFloat.div Format.binary64 (.finite .positive m₁ e₁ h₁)
      (.finite .positive m₂ e₂ h₂) = roundWithAccuracy Format.binary64 .positive
        (m₁ * 2 ^ k / m₂) unit (accuracyOfFraction (m₁ * 2 ^ k % m₂) m₂) := by
    have hshift : (e₁ - e₂ - unit).toNat = k := by omega
    simp only [UnpackedFloat.div, divCore, hunit, hshift, Nat.shiftLeft_eq]
    rfl
  have hvalue : ((m₁ * 2 ^ k : Nat) / m₂ * 2 ^ unit : ℚ) = m₁ * 2 ^ e₁ / (m₂ * 2 ^ e₂) := by
    have hpow : (2 : ℚ) ^ e₁ = 2 ^ k * 2 ^ unit * 2 ^ e₂ := by
      rw [← zpow_natCast, ← zpow_add₀ (by norm_num), ← zpow_add₀ (by norm_num)]
      congr 1
      omega
    have hne : (2 : ℚ) ^ e₂ ≠ 0 := zpow_ne_zero _ (by norm_num)
    rw [hpow]
    push_cast
    field_simp
  rw [hdiv]
  refine roundWithAccuracy_near h₂ hm (hvalue.symm ▸ hnear) ?_
  -- the quotient has the bits that its target exponent asks for
  have hlog : m₂.log2 + 1 ≤ m₁.log2 + k → m₁.log2 + k - (m₂.log2 + 1) ≤ (m₁ * 2 ^ k / m₂).log2 := by
    intro hle
    have hpos : 2 ^ (m₁.log2 + k - (m₂.log2 + 1)) ≤ m₁ * 2 ^ k / m₂ := by
      rw [Nat.le_div_iff_mul_le h₂]
      calc 2 ^ (m₁.log2 + k - (m₂.log2 + 1)) * m₂
          ≤ 2 ^ (m₁.log2 + k - (m₂.log2 + 1)) * 2 ^ (m₂.log2 + 1) :=
            Nat.mul_le_mul_left _ Nat.lt_log2_self.le
        _ = 2 ^ m₁.log2 * 2 ^ k := by
            rw [← Nat.pow_add, ← Nat.pow_add]
            congr 1
            omega
        _ ≤ m₁ * 2 ^ k := Nat.mul_le_mul_right _ (Nat.log2_self_le h₁.ne')
    exact (Nat.le_log2 (Nat.pos_of_ne_zero fun h => by simp [h] at hpos).ne').mpr hpos
  have htarget : Format.binary64.targetExponent (totalExponent (m₁ * 2 ^ k / m₂) unit) =
      max ((m₁ * 2 ^ k / m₂).log2 + 1 + unit - 53) (-1074) := rfl
  rw [htarget]
  rw [htotal] at hunit
  omega

def isPower (k : Nat) : UnpackedFloat → Bool
  | .finite .positive m e _ => 2 ^ 52 ≤ m && m * 2 ^ e.toNat == 10 ^ k * 2 ^ (-e).toNat
  | _ => false

theorem isPower_table :
    ∀ k : Fin 23, isPower k (Float.exactlyRepresentablePowersOfTen[k]).toModel.unpack := by
  decide +kernel

theorem pow_toNat {b : ℚ} (hb : b ≠ 0) (u : Int) : b ^ u.toNat = b ^ u * b ^ (-u).toNat := by
  rw [← zpow_natCast, ← zpow_natCast, ← zpow_add₀ hb]
  congr 1
  omega

theorem of_isPower {k : Nat} {u : UnpackedFloat} (h : isPower k u = true) :
    ∃ m e hm, u = .finite .positive m e hm ∧ 2 ^ 52 ≤ m ∧ (m * 2 ^ e : ℚ) = 10 ^ k := by
  unfold isPower at h
  split at h
  next m e hm =>
    rw [Bool.and_eq_true, decide_eq_true_eq, beq_iff_eq] at h
    refine ⟨m, e, hm, rfl, h.1, ?_⟩
    have hvalue : (m * 2 ^ e.toNat : ℚ) = 10 ^ k * 2 ^ (-e).toNat := by exact_mod_cast h.2
    have hne : (2 : ℚ) ^ (-e).toNat ≠ 0 := pow_ne_zero _ (by norm_num)
    refine mul_right_cancel₀ hne ?_
    rw [mul_assoc, ← pow_toNat (by norm_num), hvalue]
  next => cases h

theorem ofScientific_near {n m : Nat} {e e' : Int} (hn : n ≠ 0) (hm : Canonical m e')
    (hnear : Near (n * 10 ^ e) m e') (hupper : e ≤ 2048) (hlower : -(2048 + n.log2) ≤ e) :
    UnpackedFloat.ofScientific Format.binary64 n e = .finite .positive m e' hm.pos := by
  have hbound : ¬ e > 2 ^ 11 := by omega
  have hbound' : ¬ e < -((2 ^ 11 : Int) + n.log2) := by omega
  unfold UnpackedFloat.ofScientific
  rw [dif_neg hn, if_neg hbound, if_neg hbound']
  split
  next hsign =>
    obtain ⟨k, rfl⟩ := Int.eq_ofNat_of_zero_le hsign
    have hvalue : ((n <<< 53 : Nat) * 2 ^ (-53 : Int) *
        ((10 ^ (k : Int).toNat : Nat) * 2 ^ (0 : Int)) : ℚ) = n * 10 ^ (k : Int) := by
      rw [Nat.shiftLeft_eq, Int.toNat_natCast, zpow_natCast]
      push_cast
      norm_num
      ring
    refine mul_near ?_ hm (hvalue.symm ▸ hnear)
    rw [Nat.shiftLeft_eq]
    have hpos : 1 ≤ n * 10 ^ (k : Int).toNat :=
      Nat.mul_pos (Nat.pos_of_ne_zero hn) (Nat.pow_pos (by decide))
    calc 2 ^ 52 ≤ 1 * 2 ^ 53 := by decide
      _ ≤ n * 10 ^ (k : Int).toNat * 2 ^ 53 := Nat.mul_le_mul_right _ hpos
      _ = n * 2 ^ 53 * 10 ^ (k : Int).toNat := Nat.mul_right_comm ..
  next hsign =>
    obtain ⟨k, rfl⟩ : ∃ k : Nat, e = -k := ⟨(-e).toNat, by omega⟩
    have hvalue : ((n : Nat) * 2 ^ (0 : Int) / ((10 ^ (- -(k : Int)).toNat : Nat) * 2 ^ (0 : Int))
        : ℚ) = n * 10 ^ (-(k : Int)) := by
      rw [neg_neg, Int.toNat_natCast, zpow_neg, zpow_natCast]
      push_cast
      norm_num
      ring
    exact div_near hm (hvalue.symm ▸ hnear)

theorem rounded_value {n : Nat} (h : n ≤ 2 ^ 53) :
    (rounded n * 2 ^ ((n.log2 : Int) - 52) : ℚ) = n := by
  have hexact : (rounded n * 2 ^ (n.log2 + 1) : ℚ) = n * 2 ^ 53 := by
    exact_mod_cast rounded_exact h
  have hpow : (2 : ℚ) ^ ((n.log2 : Int) - 52) = 2 ^ (n.log2 + 1) / 2 ^ 53 := by
    rw [← zpow_natCast, ← zpow_natCast, ← zpow_sub₀ (by norm_num)]
    congr 1
    push_cast
    ring
  rw [hpow, ← mul_div_assoc, hexact, mul_div_cancel_right₀ _ (by norm_num)]

theorem float_ofScientific_near {n m : Nat} {e e' : Int} (hn : n ≠ 0) (hm : Canonical m e')
    (hnear : Near (n * 10 ^ e) m e') (hupper : e ≤ 2048) (hlower : -(2048 + n.log2) ≤ e) :
    Float.ofScientific n (decide (e < 0)) e.natAbs =
      .ofModel (Float.Model.pack (.finite .positive m e' hm.pos)) := by
  unfold Float.ofScientific
  split
  next hfast =>
    obtain ⟨hn', hunpack⟩ := unpack_toFloat hn hfast.1
    obtain ⟨p, k, hp, hpower, hplower, hpvalue⟩ :=
      of_isPower (isPower_table ⟨e.natAbs, Nat.lt_succ_of_le hfast.2⟩)
    dsimp only at hpower hpvalue ⊢
    have hnvalue := rounded_value hfast.1.le
    split
    next hsign =>
      have hvalue : (rounded n * 2 ^ ((n.log2 : Int) - 52) / (p * 2 ^ k) : ℚ) = n * 10 ^ e := by
        have he : e = -(e.natAbs : Int) := by
          have hneg := of_decide_eq_true hsign
          omega
        rw [hnvalue, hpvalue, he, zpow_neg, zpow_natCast, ← div_eq_mul_inv, Int.natAbs_neg,
          Int.natAbs_natCast]
      refine congrArg (fun u => Float.ofModel (Float.Model.pack u)) ?_
      rw [hunpack]
      exact (congrArg (UnpackedFloat.div Format.binary64 _) hpower).trans
        (div_near hm (hvalue.symm ▸ hnear))
    next hsign =>
      have hvalue : (rounded n * 2 ^ ((n.log2 : Int) - 52) * (p * 2 ^ k) : ℚ) = n * 10 ^ e := by
        have he : e = (e.natAbs : Int) := by
          have hnonneg := of_decide_eq_false (Bool.eq_false_iff.mpr hsign)
          omega
        rw [hnvalue, hpvalue, he, zpow_natCast, Int.natAbs_natCast]
      have hlarge : 2 ^ 52 ≤ rounded n * p :=
        (le_rounded hn).trans (Nat.le_mul_of_pos_right _ hp)
      refine congrArg (fun u => Float.ofModel (Float.Model.pack u)) ?_
      rw [hunpack]
      exact (congrArg (UnpackedFloat.mul Format.binary64 _) hpower).trans
        (mul_near hlarge hm (hvalue.symm ▸ hnear))
  next =>
    have hexponent : (if decide (e < 0) = true then Int.negOfNat e.natAbs
        else Int.ofNat e.natAbs) = e := by
      split
      next hsign =>
        have hneg := of_decide_eq_true hsign
        rw [Int.negOfNat_eq]
        simp only [Int.ofNat_eq_natCast]
        omega
      next hsign =>
        have hneg := of_decide_eq_false (Bool.eq_false_iff.mpr hsign)
        simp only [Int.ofNat_eq_natCast]
        omega
    dsimp only
    rw [hexponent]
    exact congrArg (fun u => Float.ofModel (Float.Model.pack u))
      (ofScientific_near hn hm hnear hupper hlower)

end Arbor.Rounding
