import Arbor.Proofs.SignificantDigits
import Mathlib.Data.List.DropRight

namespace Arbor

open Float.Model Float.Model.UnpackedFloat Rounding Json

namespace Dyadic

def value (d : Dyadic) : ℚ := d.coefficient * 2 ^ d.exponent

theorem value_nonneg (d : Dyadic) : 0 ≤ d.value := by
  rw [value]
  positivity

theorem num_div_den (d : Dyadic) : (d.num : ℚ) / d.den = d.value := by
  rw [num, den, value, Nat.pow_eq, Nat.pow_eq]
  push_cast
  rw [pow_toNat (by norm_num)]
  field_simp

end Dyadic

def exactValue (x : Float) : ℚ :=
  if signBit x then -(Dyadic.ofFloat x).value else (Dyadic.ofFloat x).value

theorem Rounding.Canonical.le_of_isLE {m m' : ℕ} {e e' : ℤ} (h : Canonical m e)
    (h' : Canonical m' e') (hle : ((compare e e').then (compare m m')).isLE = true) :
    (m * 2 ^ e : ℚ) ≤ m' * 2 ^ e' := by
  rw [Ordering.isLE_then_iff_or, Int.compare_eq_lt, Int.compare_eq_eq, Nat.isLE_compare] at hle
  rcases hle with hlt | ⟨rfl, hle⟩
  · have hleast := h.least
    have hm : (m : ℚ) ≤ 2 ^ (53 : ℤ) := by exact_mod_cast h.upper.le
    have hm' : (2 : ℚ) ^ (52 : ℤ) ≤ m' := by
      exact_mod_cast h'.normal.resolve_right (by omega)
    calc (m * 2 ^ e : ℚ) ≤ 2 ^ (53 : ℤ) * 2 ^ e := by gcongr
      _ = 2 ^ (53 + e : ℤ) := (zpow_add₀ (by norm_num) ..).symm
      _ ≤ 2 ^ (52 + e' : ℤ) := zpow_le_zpow_right₀ (by norm_num) (by omega)
      _ = 2 ^ (52 : ℤ) * 2 ^ e' := zpow_add₀ (by norm_num) ..
      _ ≤ m' * 2 ^ e' := by gcongr
  · have hcast : (m : ℚ) ≤ m' := by exact_mod_cast hle
    gcongr

theorem value_eq_zero {x : Float} (h : (Dyadic.ofFloat x).coefficient = 0) :
    (Dyadic.ofFloat x).value = 0 := by
  rw [Dyadic.value, h, Nat.cast_zero, zero_mul]

theorem exactValue_mono {x y : Float} (hx : x.isFinite = true) (hy : y.isFinite = true)
    (h : x ≤ y) : exactValue x ≤ exactValue y := by
  have hle : x.toModel.unpack.le y.toModel.unpack = true := decide_eq_true_iff.mp h
  have hxpos := (Dyadic.ofFloat x).value_nonneg
  have hypos := (Dyadic.ofFloat y).value_nonneg
  rw [Dyadic.unpack_eq hx, Dyadic.unpack_eq hy] at hle
  rw [exactValue, exactValue]
  by_cases hx0 : (Dyadic.ofFloat x).coefficient = 0 <;>
    by_cases hy0 : (Dyadic.ofFloat y).coefficient = 0
  · simp [value_eq_zero hx0, value_eq_zero hy0]
  · rw [dif_pos hx0, dif_neg hy0, signOf, signOf] at hle
    cases hs : signBit y with
    | false => simpa [value_eq_zero hx0] using hypos
    | true =>
        rw [hs] at hle
        cases hle
  · rw [dif_neg hx0, dif_pos hy0, signOf, signOf] at hle
    cases hs : signBit x with
    | false =>
        rw [hs] at hle
        cases hle
    | true => simpa [value_eq_zero hy0] using hxpos
  · rw [dif_neg hx0, dif_neg hy0, signOf, signOf] at hle
    have hxm := Dyadic.canonical hx hx0
    have hym := Dyadic.canonical hy hy0
    cases hs : signBit x with
    | false =>
        cases hs' : signBit y with
        | false =>
            simp only [hs, hs'] at hle
            exact hxm.le_of_isLE hym hle
        | true =>
            rw [hs, hs'] at hle
            cases hle
    | true =>
        cases hs' : signBit y with
        | false =>
            simp only [Bool.false_eq_true, if_true, if_false]
            linarith
        | true =>
            simp only [hs, hs'] at hle
            refine neg_le_neg (hym.le_of_isLE hxm ?_)
            rw [← Int.compare_swap, ← Nat.compare_swap, ← Ordering.swap_then]
            exact hle

section Trimming

variable {c : Char} {l t : List Char}

theorem trimEnd_eq_rdropWhile (c : Char) (l : List Char) :
    trimEnd c l = l.rdropWhile (· == c) := rfl

theorem trimEnd_of_getLast? (h : l.getLast? ≠ some c) : trimEnd c l = l := by
  rw [trimEnd_eq_rdropWhile, List.rdropWhile_eq_self_iff]
  intro hne hlast
  exact h (List.getLast?_eq_some_getLast hne ▸ congrArg some (eq_of_beq hlast))

theorem trimEnd_append_replicate (h : t.getLast? ≠ some c) (k : Nat) :
    trimEnd c (t ++ List.replicate k c) = t := by
  induction k with
  | zero => rw [List.replicate_zero, List.append_nil, trimEnd_of_getLast? h]
  | succ k ih =>
      rw [trimEnd_eq_rdropWhile, List.replicate_succ', ← List.append_assoc,
        List.rdropWhile_concat, if_pos (beq_self_eq_true c), ← trimEnd_eq_rdropWhile, ih]

theorem exists_trimmed (c : Char) (l : List Char) :
    ∃ t k, l = t ++ List.replicate k c ∧ t.getLast? ≠ some c := by
  induction l using List.reverseRecOn with
  | nil => exact ⟨[], 0, rfl, nofun⟩
  | append_singleton l d ih =>
      obtain ⟨t, k, rfl, ht⟩ := ih
      by_cases hd : d = c
      · subst hd
        exact ⟨t, k + 1, by rw [List.replicate_succ', List.append_assoc], ht⟩
      · refine ⟨t ++ List.replicate k c ++ [d], 0, by simp, ?_⟩
        simpa using hd

end Trimming

theorem trimFraction_pointed {text : String} {start places : List Char}
    (htext : text.toList = start ++ pointed places) (hstart : '.' ∉ start)
    (hplaces : ∀ c ∈ places, c.isDigit = true) :
    ∃ t k, places = t ++ List.replicate k '0' ∧ t.getLast? ≠ some '0' ∧
      (trimFraction text).toList = start ++ pointed t := by
  obtain ⟨t, k, rfl, ht⟩ := exists_trimmed '0' places
  refine ⟨t, k, rfl, ht, ?_⟩
  rw [trimFraction, htext]
  by_cases hnone : t ++ List.replicate k '0' = []
  · obtain ⟨rfl, -⟩ := List.append_eq_nil_iff.mp hnone
    rw [pointed, if_pos hnone, List.append_nil, if_neg (by simpa using hstart), htext, pointed,
      if_pos hnone, pointed, if_pos rfl]
  have hpoint : start ++ pointed (t ++ List.replicate k '0') =
      (start ++ '.' :: t) ++ List.replicate k '0' := by
    rw [pointed, if_neg hnone, List.append_assoc, List.cons_append]
  have hlast : (start ++ '.' :: t).getLast? = some (t.getLast?.getD '.') := by
    simp [List.getLast?_append, List.getLast?_cons]
  have hzero : (start ++ '.' :: t).getLast? ≠ some '0' := by
    rw [hlast]
    cases hend : t.getLast? with
    | none => decide
    | some c => exact hend ▸ ht
  rw [hpoint, if_pos (by simp), trimEnd_append_replicate hzero, String.toList_ofList, pointed]
  split
  next hempty =>
    subst hempty
    have hend : start.getLast? ≠ some '.' := fun hend => hstart (List.mem_of_getLast? hend)
    rw [List.append_nil]
    exact trimEnd_append_replicate hend 1
  next hne =>
    rw [trimEnd_of_getLast?]
    rw [hlast, List.getLast?_eq_some_getLast hne, Option.getD_some]
    intro hdot
    have hdigit := hplaces _ (List.mem_append_left _ (List.getLast_mem hne))
    rw [Option.some.inj hdot] at hdigit
    cases hdigit

namespace Json

theorem digitsValue_trimmed (whole places : List Char) (k : ℕ) (e : ℤ) :
    (digitsValue (whole ++ (places ++ List.replicate k '0')) *
        10 ^ (e - (places ++ List.replicate k '0').length) : ℚ) =
      digitsValue (whole ++ places) * 10 ^ (e - places.length) := by
  have hexponent : e - places.length = k + (e - (places ++ List.replicate k '0').length) := by
    rw [List.length_append, List.length_replicate]
    push_cast
    ring
  rw [← List.append_assoc, digitsValue_append, digitsValue_zeros, List.length_replicate, hexponent,
    zpow_add₀ (by norm_num), zpow_natCast]
  push_cast
  ring

theorem splits_positional {n : ℕ} (hn : n ≠ 0) (k : ℕ) :
    ∃ whole places, places.length = k ∧
      Splits ((⟨n, -k⟩ : Decimal).positional false).toList whole places n := by
  cases k with
  | zero =>
      refine ⟨Nat.toDigits 10 n, [], rfl, ?_, whole_toDigits n, List.forall_mem_nil _, ?_⟩
      · simp [Decimal.positional, Decimal.zeros, pointed]
      · rw [List.append_nil, digitsValue_toDigits]
  | succ k => exact splits_fraction hn k false

end Json

def Json.Numeral.signed (n : Numeral) : ℚ := if n.negative then -n.magnitude else n.magnitude

/-- What is behind the digits of a number whose leading digit has the exponent `e`. If the number is
small or large this is its exponent, of two digits or more; else there is nothing. -/
def EndsCompact (tail : List Char) (e : ℤ) : Prop :=
  if e < -4 ∨ 6 ≤ e then
    ∃ digits, tail = 'e' :: (if e < 0 then '-' else '+') :: digits ∧ 2 ≤ digits.length ∧
      (∀ c ∈ digits, c.isDigit = true) ∧ digitsValue digits = e.natAbs
  else tail = []

/-- The compact text of a number whose leading digit has the exponent `e`. No zero comes last in its
fraction, and there is no point without a fraction. -/
def IsCompact (text : List Char) (e : ℤ) : Prop :=
  ∃ negative whole places tail,
    text = signChars negative ++ (whole ++ (pointed places ++ tail)) ∧ Whole whole ∧
    (∀ c ∈ places, c.isDigit = true) ∧ places.getLast? ≠ some '0' ∧ EndsCompact tail e

theorem reads_trimmed {text : String} {whole places tail : List Char} {n : ℕ} {e k : ℤ}
    (hsplits : Splits text.toList whole places n) (negative : Bool)
    (hrest : exponent? tail = some k) (htail : EndsCompact tail e) :
    let written := (trimFraction ((if negative then "-" else "") ++ text)).toList ++ tail
    IsCompact written e ∧ ∃ m, Numeral.ofWord? written = some m ∧ m.negative = negative ∧
      m.magnitude = n * 10 ^ (k - places.length) := by
  intro written
  have htext : ((if negative then "-" else "") ++ text).toList =
      (signChars negative ++ whole) ++ pointed places := by
    rw [String.toList_append, hsplits.spelled, List.append_assoc]
    cases negative <;> rfl
  have hpoint : '.' ∉ signChars negative ++ whole := by
    intro hmem
    rcases List.mem_append.mp hmem with hmem | hmem
    · cases negative <;> simp [signChars] at hmem
    · exact absurd (hsplits.leading.digits _ hmem) (by decide)
  obtain ⟨t, j, hsame, htrimmed, htoList⟩ := trimFraction_pointed htext hpoint hsplits.fraction
  have hplaces : ∀ c ∈ t, c.isDigit = true := fun c hc =>
    hsplits.fraction c (hsame ▸ List.mem_append_left _ hc)
  have hwritten : written = signChars negative ++ (whole ++ (pointed t ++ tail)) := by
    change (trimFraction _).toList ++ tail = _
    rw [htoList, List.append_assoc, List.append_assoc]
  refine ⟨⟨negative, whole, t, tail, hwritten, hsplits.leading, hplaces, htrimmed, htail⟩, ?_⟩
  obtain ⟨m, hm, hnegative, -, hmagnitude⟩ :=
    Numeral.ofWord?_pointed negative hsplits.leading hplaces hrest
  refine ⟨m, hwritten ▸ hm, hnegative, ?_⟩
  rw [hmagnitude, ← digitsValue_trimmed whole t j k, ← hsame, hsplits.value]

theorem endsCompact_exponentChars {e : ℤ} (h : e < -4 ∨ 6 ≤ e) :
    EndsCompact (exponentChars 2 e) e := by
  rw [EndsCompact, if_pos h]
  refine ⟨_, rfl, ?_, fun _ => isDigit_padded, digitsValue_padded ..⟩
  rw [List.length_append, List.length_replicate, length_toDigits]
  omega

theorem magnitude_compact {x : Float} (hfinite : x.isFinite = true) (hne : (x == 0) = false) :
    let m := Dyadic.ofFloat x
    let d := Decimal.significant 6 m.num m.den
    0 < m.num ∧ 0 < m.den ∧ IsCompact (compact x).toList d.leading ∧
      ∃ n, Numeral.ofWord? (compact x).toList = some n ∧ n.negative = signBit x ∧
        n.magnitude = d.value := by
  intro m d
  have hcoefficient : m.coefficient ≠ 0 := fun hzero =>
    absurd ((beq_zero_iff hfinite).mpr hzero) (by simp [hne])
  have hnum : 0 < m.num := Nat.mul_pos (Nat.pos_of_ne_zero hcoefficient) (Nat.two_pow_pos _)
  have hden : 0 < m.den := Nat.two_pow_pos _
  refine ⟨hnum, hden, ?_⟩
  rw [compact, isNaN_of_finite hfinite, isInf_of_finite hfinite, hne]
  simp only [Bool.false_eq_true, if_false]
  split
  next hexponent =>
    obtain ⟨whole, places, hleading, hsplits⟩ := splits_mantissa d
    obtain ⟨hcompact, n, hn, hnegative, hmagnitude⟩ := reads_trimmed hsplits (signBit x)
      (exponent?_exponentChars 2 d.leading) (endsCompact_exponentChars hexponent)
    rw [String.toList_append, toList_exponentText]
    refine ⟨hcompact, n, hn, hnegative, ?_⟩
    rw [hmagnitude, hleading, add_sub_cancel_right]
    rfl
  next hexponent =>
    change ¬(d.leading < -4 ∨ 6 ≤ d.leading) at hexponent
    -- the digits are those of a second rounding
    have hgrid : -((5 - d.leading).toNat : ℤ) = d.leading - (5 : ℕ) := by
      push_cast
      omega
    have hvalue : (Decimal.nearest m.num m.den (-((5 - d.leading).toNat : ℤ))).value = d.value := by
      rw [hgrid]
      exact Decimal.nearest_value 5 hnum hden
    have hdigits : (Decimal.nearest m.num m.den (-((5 - d.leading).toNat : ℤ))).digits ≠ 0 := by
      intro hzero
      have hpositive := Decimal.significant_bounds 5 hnum hden
      rw [Decimal.value, hzero, Nat.cast_zero, zero_mul, eq_comm, Decimal.value] at hvalue
      have hpow : (10 : ℚ) ^ d.exponent ≠ 0 := zpow_ne_zero _ (by norm_num)
      have hnone : d.digits = 0 := by exact_mod_cast (mul_eq_zero.mp hvalue).resolve_right hpow
      change 10 ^ 5 ≤ d.digits ∧ _ at hpositive
      omega
    obtain ⟨whole, places, hlength, hsplits⟩ :=
      splits_positional hdigits (5 - d.leading).toNat
    obtain ⟨hcompact, n, hn, hnegative, hmagnitude⟩ := reads_trimmed hsplits (signBit x)
      (show exponent? [] = some 0 from rfl)
      (show EndsCompact [] d.leading by rw [EndsCompact, if_neg hexponent])
    rw [List.append_nil] at hcompact hn
    rw [fixed, isNaN_of_finite hfinite, isInf_of_finite hfinite]
    refine ⟨hcompact, n, hn, hnegative, ?_⟩
    rw [hmagnitude, hlength, zero_sub, ← hvalue]
    rfl

theorem reads_compact {x : Float} (hfinite : x.isFinite = true) (hne : (x == 0) = false) :
    ∃ e n, IsCompact (compact x).toList e ∧ Numeral.ofWord? (compact x).toList = some n ∧
      RoundsTo 6 (exactValue x) n.signed ∧ 10 ^ e ≤ |n.signed| ∧ |n.signed| < 10 ^ (e + 1) := by
  obtain ⟨hnum, hden, hcompact, n, hn, hnegative, hmagnitude⟩ := magnitude_compact hfinite hne
  have hrounds := Decimal.significant_roundsOn 6 hnum hden
  have hdigits := (Decimal.significant_bounds 5 hnum hden).1
  generalize Decimal.significant 6 _ _ = d at *
  have hleading := Decimal.leading_bounds (d := d) (by omega)
  rw [Dyadic.num_div_den] at hrounds
  have hto : RoundsTo 6 (Dyadic.ofFloat x).value d.value := ⟨_, _, hrounds, rfl⟩
  have hvalue : |n.signed| = d.value := by
    have hnonneg : 0 ≤ d.value := (zpow_nonneg (by norm_num) _).trans hleading.1
    rw [Numeral.signed, hmagnitude]
    split
    · rw [abs_neg, abs_of_nonneg hnonneg]
    · exact abs_of_nonneg hnonneg
  refine ⟨d.leading, n, hcompact, hn, ?_, hvalue ▸ hleading.1, hvalue ▸ hleading.2⟩
  rw [exactValue, Numeral.signed, hnegative, hmagnitude]
  split
  · exact hto.neg
  · exact hto

theorem reads_zero {x : Float} (hfinite : x.isFinite = true) (hzero : (x == 0) = true) :
    exactValue x = 0 ∧ ∃ n, Numeral.ofWord? (compact x).toList = some n ∧ n.signed = 0 := by
  have hvalue := value_eq_zero ((beq_zero_iff hfinite).mp hzero)
  refine ⟨by rw [exactValue, hvalue, neg_zero, ite_self], ?_⟩
  obtain ⟨n, hn, -, -, hmagnitude⟩ := Numeral.ofWord?_pointed (signBit x) (whole_toDigits 0)
    (List.forall_mem_nil _) (show exponent? [] = some 0 from rfl)
  have htext : (compact x).toList =
      signChars (signBit x) ++ (Nat.toDigits 10 0 ++ (pointed [] ++ [])) := by
    rw [compact, isNaN_of_finite hfinite, isInf_of_finite hfinite, hzero, Nat.toDigits_zero]
    simp only [Bool.false_eq_true, if_false, if_true, signChars]
    split <;> rfl
  have hnone : n.magnitude = 0 := by
    rw [hmagnitude, List.append_nil, digitsValue_toDigits, Nat.cast_zero, zero_mul]
  exact ⟨n, htext ▸ hn, by rw [Numeral.signed, hnone, neg_zero, ite_self]⟩

/-- Compact numbers. A finite number other than zero is read from its compact text as the number
rounded to six significant digits, a tie going to the even neighbour, and this number's leading
digit decides whether the text has an exponent. So the numbers that compact texts are read as are in
the order of the numbers that were written. -/
theorem compact_rounds :
    (∀ x : Float, x.isFinite = true → (x == 0) = false →
      ∃ e n, IsCompact (compact x).toList e ∧ Numeral.ofWord? (compact x).toList = some n ∧
        RoundsTo 6 (exactValue x) n.signed ∧ 10 ^ e ≤ |n.signed| ∧ |n.signed| < 10 ^ (e + 1)) ∧
    ∀ x y : Float, x.isFinite = true → y.isFinite = true → x ≤ y →
      ∃ n k, Numeral.ofWord? (compact x).toList = some n ∧
        Numeral.ofWord? (compact y).toList = some k ∧ n.signed ≤ k.signed := by
  have hreads {x : Float} (hfinite : x.isFinite = true) :
      ∃ n, Numeral.ofWord? (compact x).toList = some n ∧
        (exactValue x = 0 ∧ n.signed = 0 ∨ RoundsTo 6 (exactValue x) n.signed) := by
    cases hzero : x == 0 with
    | true =>
        obtain ⟨hvalue, n, hn, hsigned⟩ := reads_zero hfinite hzero
        exact ⟨n, hn, .inl ⟨hvalue, hsigned⟩⟩
    | false =>
        obtain ⟨-, n, -, hn, hrounds, -⟩ := reads_compact hfinite hzero
        exact ⟨n, hn, .inr hrounds⟩
  refine ⟨fun x => reads_compact, fun x y hx hy hle => ?_⟩
  have hmono := exactValue_mono hx hy hle
  obtain ⟨n, hn, hxn⟩ := hreads hx
  obtain ⟨k, hk, hyk⟩ := hreads hy
  refine ⟨n, k, hn, hk, ?_⟩
  rcases hxn with ⟨hx0, hn0⟩ | hxn <;> rcases hyk with ⟨hy0, hk0⟩ | hyk
  · rw [hn0, hk0]
  · rw [hn0]
    exact hyk.nonneg (hx0 ▸ hmono)
  · rw [hk0]
    exact hxn.nonpos (hy0 ▸ hmono)
  · exact hxn.mono hyk hmono

theorem compact_rounds_carry :
    (∃ e n, IsCompact (compact 9.999995).toList e ∧
      Numeral.ofWord? (compact 9.999995).toList = some n ∧
      RoundsTo 6 (exactValue 9.999995) n.signed ∧ 10 ^ e ≤ |n.signed| ∧
      |n.signed| < 10 ^ (e + 1)) ∧
    ∃ n k, Numeral.ofWord? (compact 0.1).toList = some n ∧
      Numeral.ofWord? (compact 9.999995).toList = some k ∧ n.signed ≤ k.signed := by
  have htenth : (0.1 : Float).isFinite = true := by decide +kernel
  have hcarry : (9.999995 : Float).isFinite = true := by decide +kernel
  exact ⟨compact_rounds.1 _ hcarry (by decide +kernel),
    compact_rounds.2 _ _ htenth hcarry (by decide +kernel)⟩

example : compact 9.999995 = "10" := by decide +kernel

end Arbor
