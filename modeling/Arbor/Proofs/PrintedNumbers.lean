import Arbor.Decimal.Notation
import Arbor.Json.Token
import Arbor.Proofs.ShortestDecimals

namespace Arbor

open Float.Model Float.Model.UnpackedFloat Rounding

theorem lt_pow_digitCount (n : Nat) : n < 10 ^ digitCount n := by
  induction n using digitCount.induct with
  | case1 n h => rwa [digitCount, if_pos h]
  | case2 n h ih =>
      rw [digitCount, if_neg h, Nat.pow_succ]
      omega

theorem pow_digitCount_le {n : Nat} (hn : n ≠ 0) : 10 ^ (digitCount n - 1) ≤ n := by
  induction n using digitCount.induct with
  | case1 n h =>
      rw [digitCount, if_pos h]
      exact Nat.pos_of_ne_zero hn
  | case2 n h ih =>
      have hquotient := ih (by omega)
      rw [digitCount, if_neg h, Nat.add_sub_cancel]
      cases hcount : digitCount (n / 10) with
      | zero =>
          have hlt := lt_pow_digitCount (n / 10)
          rw [hcount] at hlt
          omega
      | succ k =>
          rw [hcount, Nat.add_sub_cancel] at hquotient
          rw [Nat.pow_succ]
          omega

theorem digitCount_pos (n : Nat) : 0 < digitCount n := by
  rw [digitCount]
  split <;> omega

namespace Rounding

theorem two_zpow_lt (k : Nat) : (2 : ℚ) ^ (3 * k + 3 : Int) < 10 ^ (k + 1 : Int) := by
  have hexponent : (3 * k + 3 : Int) = (3 * (k + 1) : Nat) := by push_cast; ring
  rw [hexponent, zpow_natCast, pow_mul]
  exact_mod_cast Nat.pow_lt_pow_left (by decide : 2 ^ 3 < 10) (Nat.succ_ne_zero k)

variable {v : ℚ} {m : Nat} {e : Int}

theorem Near.lt (h : Near v m e) (hm : Canonical m e) : (10 : ℚ) ^ (-359 : Int) < v := by
  have hone : (1 : ℚ) ≤ m := by exact_mod_cast hm.pos
  have hpow : (2 : ℚ) ^ (-1074 : Int) ≤ 2 ^ e := zpow_le_zpow_right₀ (by norm_num) hm.least
  have hhalf : (2 : ℚ) ^ (-1075 : Int) = 1 / 2 * 2 ^ (-1074 : Int) := by
    rw [one_div, ← zpow_neg_one, ← zpow_add₀ (by norm_num)]
    norm_num
  calc (10 : ℚ) ^ (-359 : Int) = (10 ^ (359 : Int))⁻¹ := zpow_neg ..
    _ < (2 ^ (1077 : Int))⁻¹ := inv_strictAnti₀ (zpow_pos (by norm_num) _) (two_zpow_lt 358)
    _ = 2 ^ (-1077 : Int) := (zpow_neg ..).symm
    _ ≤ 2 ^ (-1075 : Int) := zpow_le_zpow_right₀ (by norm_num) (by norm_num)
    _ ≤ (m - 1 / 2) * 2 ^ e := by
        rw [hhalf]
        exact mul_le_mul (by linarith) hpow (zpow_pos (by norm_num) _).le (by linarith)
    _ ≤ v := h.lower

theorem Near.gt (h : Near v m e) (hm : Canonical m e) : v < (10 : ℚ) ^ (342 : Int) := by
  have hupper : (m : ℚ) + 1 ≤ 2 ^ (53 : Int) := by exact_mod_cast hm.upper
  have hpow : (2 : ℚ) ^ e ≤ 2 ^ (971 : Int) := zpow_le_zpow_right₀ (by norm_num) hm.greatest
  calc v ≤ (m + 1 / 2) * 2 ^ e := h.upper
    _ ≤ 2 ^ (53 : Int) * 2 ^ (971 : Int) :=
        mul_le_mul (by linarith) hpow (zpow_pos (by norm_num) _).le (zpow_pos (by norm_num) _).le
    _ = 2 ^ (53 + 971 : Int) := (zpow_add₀ (by norm_num) ..).symm
    _ ≤ 2 ^ (1026 : Int) := zpow_le_zpow_right₀ (by norm_num) (by norm_num)
    _ < (10 : ℚ) ^ (342 : Int) := two_zpow_lt 341

theorem Near.leading {n : Nat} {k : Int} (h : Near (n * 10 ^ k) m e) (hm : Canonical m e) :
    n ≠ 0 ∧ -359 < k + digitCount n ∧ k + digitCount n ≤ 342 := by
  have hpow : (0 : ℚ) < 10 ^ k := zpow_pos (by norm_num) k
  have hlt := h.lt hm
  have hgt := h.gt hm
  have hn : n ≠ 0 := by
    rintro rfl
    rw [Nat.cast_zero, zero_mul] at hlt
    exact absurd hlt (not_lt.mpr (zpow_pos (by norm_num) _).le)
  have hupper : (n : ℚ) < 10 ^ digitCount n := by exact_mod_cast lt_pow_digitCount n
  have hlower : (10 : ℚ) ^ (digitCount n - 1) ≤ n := by exact_mod_cast pow_digitCount_le hn
  have hcount := digitCount_pos n
  refine ⟨hn, ?_, ?_⟩
  · rw [← zpow_lt_zpow_iff_right₀ (show (1 : ℚ) < 10 by norm_num), add_comm,
      zpow_add₀ (by norm_num), zpow_natCast]
    exact hlt.trans (mul_lt_mul_of_pos_right hupper hpow)
  · have hscale : (10 : ℚ) ^ ((digitCount n - 1 : Nat) + k) < 10 ^ (342 : Int) := by
      rw [zpow_add₀ (by norm_num), zpow_natCast]
      exact (mul_le_mul_of_nonneg_right hlower hpow.le).trans_lt hgt
    rw [zpow_lt_zpow_iff_right₀ (by norm_num)] at hscale
    omega

end Rounding

theorem digitCount_le_log2 {n : Nat} (hn : n ≠ 0) : digitCount n ≤ n.log2 + 1 := by
  have hpow : 2 ^ (digitCount n - 1) ≤ n :=
    (Nat.pow_le_pow_left (by decide) _).trans (pow_digitCount_le hn)
  have hlog := (Nat.le_log2 hn).mpr hpow
  omega

theorem neg_pack {m : Nat} {e : Int} (h : Canonical m e) :
    -(Float.ofModel (Float.Model.pack (.finite .positive m e h.pos))) =
      Float.ofModel (Float.Model.pack (.finite .negative m e h.pos)) :=
  congrArg (fun u : UnpackedFloat => Float.ofModel (Float.Model.pack u.neg))
    (unpack_pack_canonical h)

theorem isInf_pack {m : Nat} {e : Int} (h : Canonical m e) :
    (Float.ofModel (Float.Model.pack (.finite .positive m e h.pos))).isInf = false :=
  congrArg UnpackedFloat.isInf (unpack_pack_canonical h)

theorem eq_zero_of_coefficient {x : Float} (hzero : (Dyadic.ofFloat x).coefficient = 0) :
    x = if signBit x then -0 else 0 := by
  have hbits := packComponents_bits x
  unfold Dyadic.ofFloat at hzero
  cases hb : Dyadic.biased x with
  | zero =>
      rw [hb] at hzero hbits
      dsimp only at hzero
      rw [hzero, signOf] at hbits
      split at hbits
      next hsign =>
        rw [if_pos hsign]
        exact eq_of_bits hbits.symm
      next hsign =>
        rw [if_neg hsign]
        exact eq_of_bits hbits.symm
  | succ e =>
      rw [hb] at hzero
      dsimp only at hzero
      have hpow : Nat.pow 2 52 ≠ 0 := by decide
      omega

namespace Json.Numeral

def magnitude (n : Numeral) : ℚ :=
  digitsValue (n.whole ++ n.places) * 10 ^ (n.exponent - n.places.length)

theorem double?_of_near {n : Numeral} {x : Float} (hfinite : x.isFinite = true)
    (hne : (Dyadic.ofFloat x).coefficient ≠ 0)
    (hnear : Near n.magnitude (Dyadic.ofFloat x).coefficient (Dyadic.ofFloat x).exponent)
    (hsign : n.negative = signBit x) : n.double? = some x := by
  have hcanonical := Dyadic.canonical hfinite hne
  have hpack := pack_magnitude hfinite hne
  rw [magnitude] at hnear
  obtain ⟨hdigits, hlower, hupper⟩ := hnear.leading hcanonical
  have hlog := digitCount_le_log2 hdigits
  unfold double?
  dsimp only
  have hcount := digitCount_pos (digitsValue (n.whole ++ n.places))
  rw [if_neg (by omega), if_neg (by omega),
    float_ofScientific_near hdigits hcanonical hnear (by omega) (by omega), isInf_pack hcanonical,
    hsign]
  rw [signOf] at hpack
  cases hx : signBit x with
  | false =>
      simp only [hx] at hpack
      exact congrArg some hpack
  | true =>
      simp only [hx] at hpack
      exact congrArg some ((neg_pack hcanonical).trans hpack)

theorem double?_of_zero {n : Numeral} {x : Float} (hzero : (Dyadic.ofFloat x).coefficient = 0)
    (hdigits : digitsValue (n.whole ++ n.places) = 0) (hsign : n.negative = signBit x) :
    n.double? = some x := by
  unfold double?
  dsimp only
  rw [if_pos (.inl hdigits), hsign]
  exact congrArg some (eq_zero_of_coefficient hzero).symm

end Json.Numeral

namespace Json

theorem digitsValue_eq (l : List Char) : digitsValue l = Nat.ofDigitChars 10 l 0 := rfl

theorem digitsValue_toDigits (n : Nat) : digitsValue (Nat.toDigits 10 n) = n :=
  Nat.ofDigitChars_ten_toDigits

theorem digitsValue_append (l m : List Char) :
    digitsValue (l ++ m) = digitsValue l * 10 ^ m.length + digitsValue m := by
  simp only [digitsValue_eq, Nat.ofDigitChars_append]
  rw [Nat.ofDigitChars_eq_ofDigitChars_zero, Nat.mul_comm]

theorem digitsValue_zeros (k : Nat) : digitsValue (List.replicate k '0') = 0 := by
  rw [digitsValue_eq, Nat.ofDigitChars_replicate_zero, Nat.mul_zero]

theorem digitsValue_lt {l : List Char} (h : ∀ c ∈ l, c.isDigit = true) :
    digitsValue l < 10 ^ l.length := by
  induction l using List.reverseRecOn with
  | nil => decide
  | append_singleton l c ih =>
      have hl := ih fun c hc => h c (List.mem_append_left _ hc)
      have hc : c.isDigit = true := h c (List.mem_append_right _ (List.mem_singleton_self c))
      have hvalue : digitsValue [c] ≤ 9 := by
        rw [Char.isDigit, Bool.and_eq_true, decide_eq_true_eq, decide_eq_true_eq] at hc
        have hupper : c.toNat ≤ 57 := hc.2
        have hsingle : digitsValue [c] = 10 * 0 + (c.toNat - 48) := rfl
        omega
      rw [digitsValue_append, List.length_append, List.length_singleton, Nat.pow_one, Nat.pow_succ]
      omega

theorem length_toDigits (n : Nat) : (Nat.toDigits 10 n).length = digitCount n := by
  induction n using digitCount.induct with
  | case1 n h => rw [Nat.toDigits_of_lt_base h, digitCount, if_pos h, List.length_singleton]
  | case2 n h ih =>
      rw [Nat.toDigits_of_base_le (by decide) (Nat.le_of_not_lt h), List.length_append, ih,
        List.length_singleton, digitCount.eq_def n, if_neg h]

theorem isDigit_toDigits {n : Nat} {c : Char} (h : c ∈ Nat.toDigits 10 n) : c.isDigit = true :=
  Nat.isDigit_of_mem_toDigits (by decide) (by decide) h

theorem head?_toDigits {n : Nat} (hn : n ≠ 0) : (Nat.toDigits 10 n).head? ≠ some '0' := by
  intro hhead
  obtain ⟨rest, hrest⟩ := List.head?_eq_some_iff.mp hhead
  have hlower := pow_digitCount_le hn
  have hupper : digitsValue rest < 10 ^ rest.length :=
    digitsValue_lt fun c hc => isDigit_toDigits (n := n) (hrest ▸ List.mem_cons_of_mem _ hc)
  have hvalue : digitsValue (['0'] ++ rest) = n := by
    rw [← digitsValue_toDigits n, hrest]
    rfl
  have hzero : digitsValue ['0'] = 0 := rfl
  have hlength : digitCount n - 1 = rest.length := by
    rw [← length_toDigits, hrest]
    rfl
  rw [digitsValue_append, hzero, Nat.zero_mul, Nat.zero_add] at hvalue
  rw [hlength] at hlower
  omega

/-- The digits before the point, where a leading zero stands alone. -/
structure Whole (l : List Char) : Prop where
  digits : ∀ c ∈ l, c.isDigit = true
  nonempty : l ≠ []
  leading : l.head? = some '0' → l.length = 1

theorem whole_toDigits (n : Nat) : Whole (Nat.toDigits 10 n) where
  digits _ := isDigit_toDigits
  nonempty := Nat.toDigits_ne_nil
  leading hhead := by
    by_cases hn : n = 0
    · rw [hn, Nat.toDigits_zero, List.length_singleton]
    · exact absurd hhead (head?_toDigits hn)

theorem isDigit_zeros {k : Nat} {c : Char} (h : c ∈ List.replicate k '0') : c.isDigit = true := by
  rw [List.eq_of_mem_replicate h]
  decide

theorem takeWhile_digits {l r : List Char} (hl : ∀ c ∈ l, c.isDigit = true)
    (hr : ∀ c, r.head? = some c → c.isDigit = false) :
    (l ++ r).takeWhile Char.isDigit = l ∧ (l ++ r).dropWhile Char.isDigit = r := by
  rw [List.takeWhile_append_of_pos hl, List.dropWhile_append_of_pos hl]
  cases r with
  | nil => simp
  | cons c r => simp [hr c rfl]

theorem head?_exponent {rest : List Char} {e : Int} (h : exponent? rest = some e) (c : Char)
    (hc : rest.head? = some c) : c.isDigit = false ∧ c ≠ '.' := by
  obtain ⟨rest, rfl⟩ := List.head?_eq_some_iff.mp hc
  unfold exponent? at h
  dsimp only at h
  split at h
  next hmark => rcases hmark with rfl | rfl <;> decide
  next => cases h

def signChars (negative : Bool) : List Char := if negative then ['-'] else []

def pointed (places : List Char) : List Char := if places = [] then [] else '.' :: places

namespace Numeral

variable (negative : Bool) {w p r : List Char} {e : Int}

theorem whole_check (h : Whole w) :
    (decide (w = []) || w.head? == some '0' && decide (1 < w.length)) = false := by
  have hleading := h.leading
  rw [decide_eq_false h.nonempty, Bool.false_or, Bool.and_eq_false_iff]
  by_cases hhead : w.head? = some '0'
  · exact .inr (decide_eq_false (by rw [hleading hhead]; decide))
  · exact .inl (beq_eq_false_iff_ne.mpr hhead)

theorem whole_ne_minus (h : Whole w) (r t : List Char) : w ++ r ≠ '-' :: t := by
  obtain ⟨c, cs, rfl⟩ := List.exists_cons_of_ne_nil h.nonempty
  intro heq
  have hdigit := h.digits c List.mem_cons_self
  rw [List.cons_append] at heq
  rw [(List.cons.inj heq).1] at hdigit
  cases hdigit

theorem ofWord?_point (hwhole : Whole w) (hplaces : ∀ c ∈ p, c.isDigit = true)
    (hne : p ≠ []) (hrest : exponent? r = some e) :
    ofWord? (signChars negative ++ (w ++ '.' :: (p ++ r))) =
      some ⟨negative, w, p, e, false⟩ := by
  have hpoint := takeWhile_digits (r := '.' :: (p ++ r)) hwhole.digits
    fun c hc => by obtain rfl := Option.some.inj hc; decide
  have hexponent := takeWhile_digits hplaces fun c hc => (head?_exponent hrest c hc).1
  have hminus := whole_ne_minus hwhole ('.' :: (p ++ r))
  unfold ofWord?
  cases negative <;>
    simp only [signChars, if_true, List.singleton_append, List.nil_append, hpoint,
      whole_check hwhole, hexponent, hrest, hne, Bool.false_eq_true, if_false] <;> rfl

theorem ofWord?_bare (hwhole : Whole w) (hrest : exponent? r = some e) :
    ofWord? (signChars negative ++ (w ++ r)) =
      some ⟨negative, w, [], e, r.isEmpty⟩ := by
  have hbare := takeWhile_digits hwhole.digits fun c hc => (head?_exponent hrest c hc).1
  have hminus := whole_ne_minus hwhole r
  have hpoint (t : List Char) : r ≠ '.' :: t := by
    rintro rfl
    exact (head?_exponent hrest '.' rfl).2 rfl
  unfold ofWord?
  cases negative <;>
    simp only [signChars, if_true, List.singleton_append, List.nil_append, hbare,
      whole_check hwhole, hrest, Bool.false_eq_true, if_false] <;> rfl

theorem ofWord?_pointed (hwhole : Whole w) (hplaces : ∀ c ∈ p, c.isDigit = true)
    (hrest : exponent? r = some e) :
    ∃ n : Numeral, ofWord? (signChars negative ++ (w ++ (pointed p ++ r))) = some n ∧
      n.negative = negative ∧ n.integral = (p ++ r).isEmpty ∧
      n.magnitude = digitsValue (w ++ p) * 10 ^ (e - p.length) := by
  rw [pointed]
  split
  next hnone =>
    subst hnone
    exact ⟨_, ofWord?_bare negative hwhole hrest, rfl, rfl, rfl⟩
  next hne =>
    refine ⟨_, ofWord?_point negative hwhole hplaces hne hrest, rfl, ?_, rfl⟩
    exact (List.isEmpty_eq_false_iff.mpr (List.append_ne_nil_of_left_ne_nil hne r)).symm

end Numeral

/-- A text that is read, behind any sign, as a numeral of that magnitude with a point or an
exponent. -/
structure Spells (text : List Char) (v : ℚ) : Prop where
  chars : ∀ c ∈ text, isWordChar c = true
  numeral : ∀ negative, ∃ n : Numeral, Numeral.ofWord? (signChars negative ++ text) = some n ∧
    n.negative = negative ∧ n.integral = false ∧ n.magnitude = v

theorem isWordChar_of_isDigit {c : Char} (h : c.isDigit = true) : isWordChar c = true := by
  rw [isWordChar, Char.isAlphanum, h, Bool.or_true]
  rfl

theorem spells_pointed {w p r : List Char} {e : Int} (hwhole : Whole w)
    (hplaces : ∀ c ∈ p, c.isDigit = true) (hrest : exponent? r = some e)
    (hchars : ∀ c ∈ r, isWordChar c = true) (hne : p ++ r ≠ []) :
    Spells (w ++ (pointed p ++ r)) (digitsValue (w ++ p) * 10 ^ (e - p.length)) where
  chars c hc := by
    rcases List.mem_append.mp hc with hc | hc
    · exact isWordChar_of_isDigit (hwhole.digits c hc)
    rcases List.mem_append.mp hc with hc | hc
    · rw [pointed] at hc
      split at hc
      · cases hc
      rcases List.mem_cons.mp hc with rfl | hc
      · decide
      · exact isWordChar_of_isDigit (hplaces c hc)
    · exact hchars c hc
  numeral negative := by
    obtain ⟨n, hn, hnegative, hintegral, hmagnitude⟩ :=
      Numeral.ofWord?_pointed negative hwhole hplaces hrest
    refine ⟨n, hn, hnegative, ?_, hmagnitude⟩
    rw [hintegral, List.isEmpty_eq_false_iff]
    exact hne

theorem toList_toString (n : Nat) : (toString n).toList = Nat.toDigits 10 n := Nat.toList_repr

theorem whole_zeros {n : Nat} (hn : n ≠ 0) (k : Nat) :
    Whole (Nat.toDigits 10 n ++ List.replicate k '0') where
  digits c hc := by
    rcases List.mem_append.mp hc with hc | hc
    · exact isDigit_toDigits hc
    · exact isDigit_zeros hc
  nonempty := List.append_ne_nil_of_left_ne_nil Nat.toDigits_ne_nil _
  leading hhead := by
    rw [List.head?_append_of_ne_nil _ Nat.toDigits_ne_nil] at hhead
    exact absurd hhead (head?_toDigits hn)

theorem isDigit_padded {k n : Nat} {c : Char}
    (hc : c ∈ List.replicate k '0' ++ Nat.toDigits 10 n) : c.isDigit = true :=
  (List.mem_append.mp hc).elim isDigit_zeros isDigit_toDigits

theorem digitsValue_padded (k n : Nat) :
    digitsValue (List.replicate k '0' ++ Nat.toDigits 10 n) = n := by
  rw [digitsValue_append, digitsValue_zeros, Nat.zero_mul, Nat.zero_add, digitsValue_toDigits]

theorem whole_padded {n : Nat} (hn : n ≠ 0) (k : Nat) :
    let padded := List.replicate (k + 1 - (Nat.toDigits 10 n).length) '0' ++ Nat.toDigits 10 n
    k < padded.length ∧ Whole (padded.take (padded.length - k)) ∧
      (∀ c ∈ padded, c.isDigit = true) ∧ digitsValue padded = n := by
  intro padded
  have hlength : padded.length =
      k + 1 - (Nat.toDigits 10 n).length + (Nat.toDigits 10 n).length := by
    rw [List.length_append, List.length_replicate]
  have hdigits : ∀ c ∈ padded, c.isDigit = true := fun _ => isDigit_padded
  refine ⟨by omega, ⟨fun c hc => hdigits c (List.mem_of_mem_take hc), ?_, ?_⟩, hdigits, ?_⟩
  · refine List.ne_nil_of_length_pos ?_
    rw [List.length_take]
    omega
  · intro hhead
    rw [List.length_take]
    by_cases hpad : k + 1 - (Nat.toDigits 10 n).length = 0
    · rw [List.head?_take, if_neg (by omega)] at hhead
      have hsame : padded = Nat.toDigits 10 n := by
        change List.replicate _ '0' ++ _ = _
        rw [hpad, List.replicate_zero, List.nil_append]
      rw [hsame] at hhead
      exact absurd hhead (head?_toDigits hn)
    · omega
  · exact digitsValue_padded ..

structure Splits (text : List Char) (whole places : List Char) (n : Nat) : Prop where
  spelled : text = whole ++ pointed places
  leading : Whole whole
  fraction : ∀ c ∈ places, c.isDigit = true
  value : digitsValue (whole ++ places) = n

theorem splits_fraction {n : Nat} (hn : n ≠ 0) (k : Nat) (pointZero : Bool) :
    ∃ whole places, places.length = k + 1 ∧
      Splits ((⟨n, -(k + 1 : Nat)⟩ : Decimal).positional pointZero).toList whole places n := by
  obtain ⟨hlength, hwhole, hdigits, hvalue⟩ := whole_padded hn (k + 1)
  rw [Decimal.positional, if_neg (by dsimp only; omega)]
  simp only [neg_neg, Int.toNat_natCast, toList_toString]
  generalize List.replicate (k + 1 + 1 - (Nat.toDigits 10 n).length) '0' ++ Nat.toDigits 10 n =
    padded at *
  have hplaces : (padded.drop (padded.length - (k + 1))).length = k + 1 := by
    rw [List.length_drop]
    omega
  refine ⟨_, _, hplaces, ?_, hwhole, fun c hc => hdigits c (List.mem_of_mem_drop hc), ?_⟩
  · rw [pointed, if_neg (List.ne_nil_of_length_pos (by omega))]
    simp only [String.toList_append, String.toList_ofList, List.append_assoc]
    rfl
  · rw [List.take_append_drop, hvalue]

theorem whole_singleton {c : Char} (h : c.isDigit = true) : Whole [c] where
  digits _ hc := List.mem_singleton.mp hc ▸ h
  nonempty := List.cons_ne_nil _ _
  leading _ := rfl

theorem splits_mantissa (d : Decimal) : ∃ whole places,
    d.leading = d.exponent + places.length ∧ Splits d.mantissa.toList whole places d.digits := by
  have hdigits : ∀ c ∈ Nat.toDigits 10 d.digits, c.isDigit = true := fun _ => isDigit_toDigits
  have hvalue := digitsValue_toDigits d.digits
  have hlength := length_toDigits d.digits
  have hleading : d.leading = d.exponent + digitCount d.digits - 1 := rfl
  rw [Decimal.mantissa]
  simp only [toList_toString]
  cases hsplit : Nat.toDigits 10 d.digits with
  | nil => exact absurd hsplit Nat.toDigits_ne_nil
  | cons c p =>
      rw [hsplit] at hdigits hvalue hlength
      have hplaces : ∀ c ∈ p, c.isDigit = true := fun c hc => hdigits c (List.mem_cons_of_mem _ hc)
      refine ⟨[c], p, ?_, ?_, whole_singleton (hdigits c List.mem_cons_self), hplaces, hvalue⟩
      · rw [List.length_cons] at hlength
        omega
      · cases p with
        | nil => exact String.toList_ofList
        | cons c' p => exact String.toList_ofList

theorem spells_positional {d : Decimal} (hd : d.digits ≠ 0) :
    Spells (d.positional true).toList d.value := by
  obtain ⟨n, e⟩ := d
  change n ≠ 0 at hd
  rcases lt_or_ge e 0 with hneg | hnonneg
  · obtain ⟨k, rfl⟩ : ∃ k : Nat, e = -(k + 1 : Nat) := ⟨(-e - 1).toNat, by omega⟩
    obtain ⟨whole, places, hlength, hsplits⟩ := splits_fraction hd k true
    have hne : places ≠ [] := List.ne_nil_of_length_pos (by omega)
    have hspells := spells_pointed (r := []) hsplits.leading hsplits.fraction rfl (by simp)
      (by simpa using hne)
    rw [hsplits.value, List.append_nil, ← hsplits.spelled, hlength, zero_sub] at hspells
    exact hspells
  · obtain ⟨k, rfl⟩ := Int.eq_ofNat_of_zero_le hnonneg
    have hspells := spells_pointed (p := ['0']) (r := []) (whole_zeros hd k)
      (fun c hc => isDigit_zeros (k := 1) hc) rfl (by simp) (List.cons_ne_nil _ _)
    have htext : ((⟨n, k⟩ : Decimal).positional true).toList =
        Nat.toDigits 10 n ++ List.replicate k '0' ++ (pointed ['0'] ++ []) := by
      rw [Decimal.positional, if_pos (Int.natCast_nonneg k), String.toList_append,
        String.toList_append, toList_toString, Decimal.zeros, String.toList_ofList]
      rfl
    have hvalue : (digitsValue (Nat.toDigits 10 n ++ List.replicate k '0' ++ ['0']) *
        10 ^ (0 - (['0'].length : Int)) : ℚ) = n * 10 ^ (k : Int) := by
      have hzero : digitsValue ['0'] = 0 := rfl
      rw [digitsValue_append, digitsValue_append, digitsValue_toDigits, digitsValue_zeros, hzero,
        List.length_replicate, List.length_singleton, zpow_natCast, Nat.cast_one, zero_sub,
        zpow_neg_one]
      push_cast
      ring
    rw [hvalue, ← htext] at hspells
    exact hspells

def exponentChars (width : Nat) (e : Int) : List Char :=
  'e' :: (if e < 0 then '-' else '+') ::
    (List.replicate (width - digitCount e.natAbs) '0' ++ Nat.toDigits 10 e.natAbs)

theorem toList_exponentText (width : Nat) (e : Int) :
    (Decimal.exponentText width e).toList = exponentChars width e := by
  have hlength : (toString e.natAbs).length = digitCount e.natAbs := by
    rw [← String.length_toList, toList_toString, length_toDigits]
  simp only [Decimal.exponentText, String.toList_append, toList_toString, hlength, exponentChars,
    Decimal.zeros, String.toList_ofList]
  split <;> rfl

theorem exponent?_exponentChars (width : Nat) (e : Int) :
    exponent? (exponentChars width e) = some e := by
  have hvalue := digitsValue_padded (width - digitCount e.natAbs) e.natAbs
  have hdigits : (List.replicate (width - digitCount e.natAbs) '0' ++
      Nat.toDigits 10 e.natAbs).all Char.isDigit = true :=
    List.all_eq_true.mpr fun c => isDigit_padded
  have hne : List.replicate (width - digitCount e.natAbs) '0' ++ Nat.toDigits 10 e.natAbs ≠ [] :=
    List.append_ne_nil_of_right_ne_nil _ Nat.toDigits_ne_nil
  rw [exponentChars]
  generalize List.replicate (width - digitCount e.natAbs) '0' ++ Nat.toDigits 10 e.natAbs =
    digits at *
  split
  next hneg =>
    have habs : -(e.natAbs : Int) = e := by omega
    simp only [exponent?, hdigits, hne, hvalue, ne_eq, not_false_eq_true, true_or,
      decide_true, Bool.and_self, if_true]
    exact congrArg some habs
  next hpos =>
    have habs : (e.natAbs : Int) = e := by omega
    simp only [exponent?, hdigits, hne, hvalue, ne_eq, not_false_eq_true, true_or,
      decide_true, Bool.and_self, if_true]
    exact congrArg some habs

theorem isWordChar_exponentChars {width : Nat} {e : Int} {c : Char}
    (hc : c ∈ exponentChars width e) : isWordChar c = true := by
  rcases List.mem_cons.mp hc with rfl | hc
  · decide
  rcases List.mem_cons.mp hc with rfl | hc
  · split <;> decide
  · exact isWordChar_of_isDigit (isDigit_padded hc)

theorem spells_scientific (d : Decimal) : Spells d.scientific.toList d.value := by
  obtain ⟨whole, places, hleading, hsplits⟩ := splits_mantissa d
  have hspells := spells_pointed hsplits.leading hsplits.fraction
    (exponent?_exponentChars 1 d.leading) (fun _ => isWordChar_exponentChars)
    (List.append_ne_nil_of_right_ne_nil _ (List.cons_ne_nil _ _))
  rw [hsplits.value, ← List.append_assoc, ← hsplits.spelled, ← toList_exponentText,
    ← String.toList_append, hleading, add_sub_cancel_right, ← hleading] at hspells
  exact hspells

theorem spells_write {d : Decimal} (hd : d.digits ≠ 0) :
    Spells (d.write .document).toList d.value := by
  rw [Decimal.write]
  split
  · exact spells_positional hd
  · exact spells_scientific d

theorem spells_zero : Spells ((⟨0, 0⟩ : Decimal).write .document).toList 0 := by
  have hdigit : ∀ c ∈ ['0'], c.isDigit = true := fun c hc => isDigit_zeros (k := 1) hc
  have hspells := spells_pointed (r := []) (whole_toDigits 0) hdigit rfl (by simp)
    (List.cons_ne_nil _ _)
  have hvalue : digitsValue (Nat.toDigits 10 0 ++ ['0']) = 0 := rfl
  rw [hvalue, Nat.cast_zero, zero_mul] at hspells
  exact hspells

structure ReadsAs (word : List Char) (v : Json) : Prop where
  nonempty : word ≠ []
  chars : ∀ c ∈ word, isWordChar c = true
  value : ofWord? word = some v

theorem readsAs_null : ReadsAs "null".toList .null :=
  ⟨List.cons_ne_nil _ _, List.all_eq_true.mp rfl, rfl⟩

theorem readsAs_bool (b : Bool) : ReadsAs (if b then "true" else "false").toList (.bool b) := by
  cases b with
  | false => exact ⟨List.cons_ne_nil _ _, List.all_eq_true.mp rfl, rfl⟩
  | true => exact ⟨List.cons_ne_nil _ _, List.all_eq_true.mp rfl, rfl⟩

theorem ofWord?_numeral {word : List Char} {n : Numeral} (h : Numeral.ofWord? word = some n) :
    ofWord? word = some n.value := by
  have hne (name : String) (hname : Numeral.ofWord? name.toList = none) : word ≠ name.toList := by
    rintro rfl
    rw [hname] at h
    cases h
  rw [ofWord?, if_neg (hne "null" rfl), if_neg (hne "true" rfl), if_neg (hne "false" rfl), h]
  rfl

theorem isWordChar_signChars {negative : Bool} {c : Char} (hc : c ∈ signChars negative) :
    isWordChar c = true := by
  cases negative with
  | false => cases hc
  | true =>
      rw [List.mem_singleton.mp hc]
      decide

theorem readsAs_digits (negative : Bool) {text : List Char} {v : Json} (hne : text ≠ [])
    (hchars : ∀ c ∈ text, isWordChar c = true)
    (hvalue : ∃ n, Numeral.ofWord? (signChars negative ++ text) = some n ∧ n.value = v) :
    ReadsAs (signChars negative ++ text) v := by
  obtain ⟨n, hn, hv⟩ := hvalue
  refine ⟨List.append_ne_nil_of_right_ne_nil _ hne, fun c hc => ?_, ?_⟩
  · rcases List.mem_append.mp hc with hc | hc
    · exact isWordChar_signChars hc
    · exact hchars c hc
  · rw [ofWord?_numeral hn, hv]

theorem toList_toString_int (n : Int) :
    (toString n).toList = signChars (decide (n < 0)) ++ Nat.toDigits 10 n.natAbs := by
  rw [Int.toString_eq_repr, Int.repr_eq_if]
  split
  next hnonneg =>
    have habs : n.toNat = n.natAbs := by omega
    rw [decide_eq_false (by omega), habs]
    exact Nat.toList_repr
  next hneg =>
    have habs : (-n).toNat = n.natAbs := by omega
    rw [decide_eq_true (by omega), habs, String.toList_append, Nat.toList_repr]
    rfl

theorem readsAs_integer {n : Int} (hlower : Int64.minValue.toInt ≤ n) (hupper : n < UInt64.size) :
    ReadsAs (toString n).toList (.integer n) := by
  rw [toList_toString_int]
  refine readsAs_digits _ Nat.toDigits_ne_nil
    (fun c hc => isWordChar_of_isDigit (isDigit_toDigits hc))
    ⟨⟨decide (n < 0), Nat.toDigits 10 n.natAbs, [], 0, true⟩, ?_, ?_⟩
  · have hbare := Numeral.ofWord?_bare (decide (n < 0)) (whole_toDigits n.natAbs)
      (show exponent? [] = some 0 from rfl)
    rwa [List.append_nil] at hbare
  · rw [Numeral.value, digitsValue_toDigits]
    by_cases hneg : n < 0
    · have habs : -(n.natAbs : Int) = n := by omega
      rw [decide_eq_true hneg]
      simp only [habs, hlower, Bool.not_true, Bool.and_false, Bool.false_and, Bool.false_eq_true,
        if_false, Bool.true_and, decide_true, Bool.and_true, decide_eq_true_eq]
      rw [if_pos (by omega)]
    · have habs : (n.natAbs : Int) = n := by omega
      have hlt : n.natAbs < UInt64.size := by omega
      rw [decide_eq_false hneg]
      simp only [habs, hlt, Bool.not_false, Bool.and_self, decide_true, if_true]

theorem unpack_zero : (0 : Float).toModel.unpack = .zero .positive := rfl

theorem beq_zero_iff {x : Float} (hfinite : x.isFinite = true) :
    (x == 0) = true ↔ (Dyadic.ofFloat x).coefficient = 0 := by
  have hunpack := Dyadic.unpack_eq hfinite
  have hbeq : (x == 0) = (x.toModel.unpack.compare (.zero .positive) == some .eq) :=
    congrArg (fun u => UnpackedFloat.compare _ u == _) unpack_zero
  rw [hbeq, hunpack]
  split
  next hzero => simp [hzero, UnpackedFloat.compare]
  next hne => cases signOf x <;> simp [hne, UnpackedFloat.compare]

theorem isNaN_of_finite {x : Float} (hfinite : x.isFinite = true) : x.isNaN = false := by
  refine (congrArg UnpackedFloat.isNaN (Dyadic.unpack_eq hfinite)).trans ?_
  split <;> rfl

theorem isInf_of_finite {x : Float} (hfinite : x.isFinite = true) : x.isInf = false := by
  refine (congrArg UnpackedFloat.isInf (Dyadic.unpack_eq hfinite)).trans ?_
  split <;> rfl

theorem shortest_eq {x : Float} (hfinite : x.isFinite = true) :
    (NumberStyle.document.shortest x).toList = signChars (signBit x) ++
      (Decimal.write .document (if (Dyadic.ofFloat x).coefficient = 0 then ⟨0, 0⟩
        else Decimal.shortest .toEven x)).toList := by
  have hzero : (x == 0) = decide ((Dyadic.ofFloat x).coefficient = 0) := by
    rw [Bool.eq_iff_iff, beq_zero_iff hfinite, decide_eq_true_eq]
  rw [NumberStyle.shortest, NumberStyle.signed, isNaN_of_finite hfinite, isInf_of_finite hfinite,
    hzero]
  simp only [Bool.false_eq_true, if_false, decide_eq_true_eq, String.toList_append, signChars]
  congr 1
  split <;> rfl

theorem Spells.readsAs {text : List Char} {v : ℚ} {x : Float} (h : Spells text v)
    (hdouble : ∀ n : Numeral, n.negative = signBit x → n.magnitude = v → n.double? = some x) :
    ReadsAs (signChars (signBit x) ++ text) (.double x) := by
  refine readsAs_digits _ ?_ h.chars ?_
  · rintro rfl
    obtain ⟨n, hn, -⟩ := h.numeral false
    cases hn
  · obtain ⟨n, hn, hsign, hintegral, hmagnitude⟩ := h.numeral (signBit x)
    refine ⟨n, hn, ?_⟩
    rw [Numeral.value, hintegral, hdouble n hsign hmagnitude]
    rfl

/-- A finite double is written so that it is read as the same double. -/
theorem readsAs_double {x : Float} (hfinite : x.isFinite = true) :
    ReadsAs (NumberStyle.document.shortest x).toList (.double x) := by
  rw [shortest_eq hfinite]
  split
  next hzero =>
    refine spells_zero.readsAs fun n hsign hmagnitude => ?_
    refine Numeral.double?_of_zero hzero ?_ hsign
    have hpow : (10 : ℚ) ^ (n.exponent - n.places.length) ≠ 0 := zpow_ne_zero _ (by norm_num)
    exact_mod_cast (mul_eq_zero.mp hmagnitude).resolve_right hpow
  next hne =>
    have hnear := Decimal.shortest_near .toEven hne
    have hdigits := (hnear.leading (Dyadic.canonical hfinite hne)).1
    refine (spells_write hdigits).readsAs fun n hsign hmagnitude => ?_
    exact Numeral.double?_of_near hfinite hne (hmagnitude ▸ hnear) hsign

end Json

end Arbor
