import Arbor.Decimal.Shortest
import Arbor.Proofs.NearestDoubles

namespace Arbor

open Float.Model Float.Model.UnpackedFloat Rounding

abbrev doubleBits (x : Float) : BitVec Format.binary64.numBits := x.toModel.toBits.toBitVec

theorem eq_of_bits {x y : Float} (h : doubleBits x = doubleBits y) :
    x = y := by
  obtain ⟨⟨xbits, xvalid⟩⟩ := x
  obtain ⟨⟨ybits, yvalid⟩⟩ := y
  exact congrArg Float.ofModel ((Float.Model.mk.injEq ..).mpr (congrArg UInt64.ofBitVec h))

namespace Dyadic

variable (x : Float)

theorem biased_eq : biased x = x.toBits.toNat / 2 ^ 52 % 2 ^ 11 := by
  have hmask : (0x7FF : UInt64).toNat = 2 ^ 11 - 1 := rfl
  rw [biased, UInt64.toNat_and, UInt64.toNat_shiftRight, hmask, Nat.and_two_pow_sub_one_eq_mod,
    Nat.shiftRight_eq_div_pow]
  rfl

theorem fraction_eq : fraction x = x.toBits.toNat % 2 ^ 52 := by
  have hmask : (0xFFFFFFFFFFFFF : UInt64).toNat = 2 ^ 52 - 1 := rfl
  rw [fraction, UInt64.toNat_and, hmask, Nat.and_two_pow_sub_one_eq_mod]

theorem unpackMantissa_toNat : (unpackMantissa (doubleBits x)).toNat = fraction x := by
  rw [fraction_eq]
  simp [unpackMantissa, Float.toBits]

theorem unpackExponent_toNat : (unpackExponent (doubleBits x)).toNat = biased x := by
  rw [biased_eq]
  simp [unpackExponent, Float.toBits, Nat.shiftRight_eq_div_pow]

end Dyadic

def signOf (x : Float) : Sign := if signBit x then .negative else .positive

theorem signOf_toNat (x : Float) : (signOf x).toBitVec.toNat = x.toBits.toNat / 2 ^ 63 := by
  have hlt := x.toBits.toNat_lt
  have hshift : (x.toBits >>> 63).toNat = x.toBits.toNat / 2 ^ 63 := by
    rw [UInt64.toNat_shiftRight, Nat.shiftRight_eq_div_pow]
    rfl
  rw [signOf, signBit]
  by_cases hone : x.toBits >>> 63 = 1
  · rw [hone] at hshift
    simp only [hone, beq_self_eq_true, if_true, ← hshift]
    rfl
  · have hne : (x.toBits >>> 63).toNat ≠ 1 := fun h => hone (UInt64.toNat_inj.mp h)
    have hzero : (0 : Nat) = x.toBits.toNat / 2 ^ 63 := by omega
    rw [if_neg (by simpa using hone)]
    exact hzero

theorem unpackSign_eq (x : Float) : Sign.ofBitVec (unpackSign (doubleBits x)) = signOf x := by
  have hword : unpackSign (doubleBits x) = (signOf x).toBitVec := by
    have hlt := x.toModel.toBits.toNat_lt
    apply BitVec.eq_of_toNat_eq
    rw [signOf_toNat]
    simp [unpackSign, Float.toBits, Nat.shiftRight_eq_div_pow]
    omega
  rw [hword, Sign.ofBitVec_toBitVec]

namespace Dyadic

theorem unpack_eq {x : Float} (hfinite : x.isFinite = true) :
    x.toModel.unpack = if h : (ofFloat x).coefficient = 0 then .zero (signOf x)
      else .finite (signOf x) (ofFloat x).coefficient (ofFloat x).exponent
        (Nat.pos_of_ne_zero h) := by
  have hsign := unpackSign_eq x
  have hmantissa := unpackMantissa_toNat x
  have hexponent := unpackExponent_toNat x
  have hunpack : x.toModel.unpack = UnpackedFloat.unpack Format.binary64 (doubleBits x) := rfl
  have hunpacked : (UnpackedFloat.unpack Format.binary64 (doubleBits x)).isFinite = true :=
    hfinite
  rw [hunpack]
  generalize doubleBits x = b at *
  have hbias : (Format.exponentBias Format.binary64 : Nat) = 1023 := rfl
  have hone : (1#1 ++ unpackMantissa b).toNat = 2 ^ 52 + fraction x := by
    rw [BitVec.toNat_append, ← Nat.shiftLeft_add_eq_or_of_lt (BitVec.isLt _), hmantissa]
    rfl
  unfold UnpackedFloat.unpack at hunpacked ⊢
  dsimp only at hunpacked ⊢
  split at hunpacked
  · split at hunpacked <;> cases hunpacked
  next hnormal =>
    rw [if_neg hnormal]
    cases hbiased : biased x with
    | zero =>
        have hzero : unpackExponent b = 0#11 :=
          BitVec.eq_of_toNat_eq (hexponent.trans hbiased)
        have hmagnitude : ofFloat x = ⟨fraction x, -1074⟩ := by rw [ofFloat, hbiased]
        rw [if_pos hzero, hmagnitude, hsign]
        dsimp only
        by_cases hfraction : fraction x = 0
        · have hnone : unpackMantissa b = 0#52 :=
            BitVec.eq_of_toNat_eq (hmantissa.trans hfraction)
          rw [dif_pos hnone, dif_pos hfraction]
        · have hsome : unpackMantissa b ≠ 0#52 := by
            intro h
            rw [h] at hmantissa
            exact hfraction hmantissa.symm
          rw [dif_neg hsome, dif_neg hfraction]
          simp only [hmantissa, hexponent, hbiased, hbias]
          rfl
    | succ e =>
        have hne : unpackExponent b ≠ 0#11 := by
          intro h
          rw [h, hbiased] at hexponent
          cases hexponent
        have hmagnitude : ofFloat x = ⟨2 ^ 52 + fraction x, (e : Int) - 1074⟩ := by
          rw [ofFloat, hbiased]
          rfl
        rw [if_neg hne, hmagnitude, hsign]
        dsimp only
        rw [dif_neg (by omega)]
        simp only [hone, hexponent, hbiased, hbias]
        congr 1
        omega

theorem biased_lt {x : Float} (hfinite : x.isFinite = true) : biased x < 2047 := by
  have hlt : biased x < 2 ^ 11 := by
    rw [biased_eq]
    exact Nat.mod_lt _ (by decide)
  have hexponent := unpackExponent_toNat x
  have hunpacked : (UnpackedFloat.unpack Format.binary64 (doubleBits x)).isFinite = true :=
    hfinite
  unfold UnpackedFloat.unpack at hunpacked
  dsimp only at hunpacked
  split at hunpacked
  · split at hunpacked <;> cases hunpacked
  next hnormal =>
    refine Nat.lt_of_le_of_ne (by omega) fun h => hnormal ?_
    exact BitVec.eq_of_toNat_eq (hexponent.trans h)

theorem fraction_lt (x : Float) : fraction x < 2 ^ 52 := by
  rw [fraction_eq]
  exact Nat.mod_lt _ (by decide)

theorem canonical {x : Float} (hfinite : x.isFinite = true)
    (hne : (ofFloat x).coefficient ≠ 0) :
    Canonical (ofFloat x).coefficient (ofFloat x).exponent := by
  have hbiased := biased_lt hfinite
  have hfraction := fraction_lt x
  have hpos := Nat.pos_of_ne_zero hne
  unfold ofFloat at hpos ⊢
  cases hb : biased x with
  | zero =>
      rw [hb] at hpos
      exact ⟨hpos, hfraction.trans (by decide), le_refl (-1074), by norm_num, .inr rfl⟩
  | succ e =>
      rw [hb] at hbiased
      have hpower : Nat.pow 2 52 = 2 ^ 52 := rfl
      dsimp only
      rw [hpower]
      exact ⟨by omega, by omega, by omega, by omega, .inl (Nat.le_add_right ..)⟩

end Dyadic

theorem packComponents_toNat (s : Sign) (e : BitVec 11) (m : BitVec 52) :
    (packComponents Format.binary64 s e m).toNat =
      s.toBitVec.toNat * 2 ^ 63 + e.toNat * 2 ^ 52 + m.toNat := by
  have hleft : (s.toBitVec ++ e).toNat = s.toBitVec.toNat * 2 ^ 11 + e.toNat := by
    rw [BitVec.toNat_append, ← Nat.shiftLeft_add_eq_or_of_lt e.isLt, Nat.shiftLeft_eq]
  have hwhole : (packComponents Format.binary64 s e m).toNat =
      (s.toBitVec ++ e).toNat * 2 ^ 52 + m.toNat := by
    rw [packComponents, BitVec.toNat_append, ← Nat.shiftLeft_add_eq_or_of_lt m.isLt,
      Nat.shiftLeft_eq]
  rw [hwhole, hleft]
  omega

theorem packComponents_bits (x : Float) :
    packComponents Format.binary64 (signOf x) (BitVec.ofNat 11 (Dyadic.biased x))
      (BitVec.ofNat 52 (Dyadic.fraction x)) = doubleBits x := by
  apply BitVec.eq_of_toNat_eq
  have hlt := x.toModel.toBits.toNat_lt
  rw [packComponents_toNat, signOf_toNat, BitVec.toNat_ofNat, BitVec.toNat_ofNat, Dyadic.biased_eq,
    Dyadic.fraction_eq]
  change x.toModel.toBits.toNat / 2 ^ 63 * 2 ^ 63 +
    x.toModel.toBits.toNat / 2 ^ 52 % 2 ^ 11 % 2 ^ 11 * 2 ^ 52 +
    x.toModel.toBits.toNat % 2 ^ 52 % 2 ^ 52 = x.toModel.toBits.toNat
  omega

theorem pack_normal {s : Sign} {m b : Nat} {e : Int} (hm : 0 < m) (hlower : 2 ^ 52 ≤ m)
    (hupper : m < 2 ^ 53) (hb : (b : Int) = e + 1075) (hbupper : b < 2047) :
    UnpackedFloat.pack Format.binary64 (.finite s m e hm) =
      packComponents Format.binary64 s (BitVec.ofNat 11 b) (BitVec.ofNat 52 m) := by
  have hlog : m.log2 = 52 := (Nat.log2_eq_iff hm.ne').mpr ⟨hlower, hupper⟩
  have hbiased : (e + (Format.exponentBias Format.binary64 : Nat) + (52 : Nat)).toNat = b := by
    have hbias : Format.exponentBias Format.binary64 = 1023 := rfl
    omega
  unfold UnpackedFloat.pack
  dsimp only
  rw [hbiased, if_neg (by omega), if_pos (by rw [hlog]; rfl)]

theorem pack_subnormal {s : Sign} {m : Nat} (hm : 0 < m) (hupper : m < 2 ^ 52) :
    UnpackedFloat.pack Format.binary64 (.finite s m (-1074) hm) =
      packComponents Format.binary64 s (BitVec.ofNat 11 0) (BitVec.ofNat 52 m) := by
  have hlog : m.log2 < 52 := (Nat.log2_lt hm.ne').mpr hupper
  have hmantissa : ¬ m.log2 + 1 = Format.binary64.mantissaBits := by
    have hbits : Format.binary64.mantissaBits = 53 := rfl
    omega
  unfold UnpackedFloat.pack
  dsimp only
  rw [if_neg (by decide), if_neg hmantissa]

theorem pack_magnitude {x : Float} (hfinite : x.isFinite = true)
    (hne : (Dyadic.ofFloat x).coefficient ≠ 0) :
    Float.ofModel (Float.Model.pack (.finite (signOf x) (Dyadic.ofFloat x).coefficient
      (Dyadic.ofFloat x).exponent (Dyadic.canonical hfinite hne).pos)) = x := by
  have hbits := packComponents_bits x
  have hbiased := Dyadic.biased_lt hfinite
  have hfraction := Dyadic.fraction_lt x
  have hpack : UnpackedFloat.pack Format.binary64 (.finite (signOf x)
      (Dyadic.ofFloat x).coefficient (Dyadic.ofFloat x).exponent
        (Dyadic.canonical hfinite hne).pos) = doubleBits x := by
    rw [← hbits]
    cases hb : Dyadic.biased x with
    | zero =>
        have hmagnitude : Dyadic.ofFloat x = ⟨Dyadic.fraction x, -1074⟩ := by
          rw [Dyadic.ofFloat, hb]
        simp only [hmagnitude] at hne ⊢
        exact pack_subnormal (Nat.pos_of_ne_zero hne) hfraction
    | succ e =>
        have hmagnitude : Dyadic.ofFloat x =
            ⟨2 ^ 52 + Dyadic.fraction x, (e : Int) - 1074⟩ := by
          rw [Dyadic.ofFloat, hb]
          rfl
        have hmantissa : BitVec.ofNat 52 (2 ^ 52 + Dyadic.fraction x) =
            BitVec.ofNat 52 (Dyadic.fraction x) := by
          apply BitVec.eq_of_toNat_eq
          rw [BitVec.toNat_ofNat, BitVec.toNat_ofNat, Nat.add_mod_left]
        simp only [hmagnitude]
        rw [pack_normal (b := e + 1) (by omega) (by omega) (by omega) (by omega) (by omega),
          hmantissa]
  exact eq_of_bits hpack

theorem unpack_pack_canonical {s : Sign} {m : Nat} {e : Int} (h : Canonical m e) :
    (Float.Model.pack (.finite s m e h.pos)).unpack = .finite s m e h.pos := by
  rcases Nat.lt_or_ge m (2 ^ 52) with hsmall | hlarge
  · obtain rfl : e = -1074 := h.normal.resolve_left (by omega)
    have hmantissa : (BitVec.ofNat 52 m).toNat = m := by
      rw [BitVec.toNat_ofNat]
      exact Nat.mod_eq_of_lt hsmall
    have hne : BitVec.ofNat 52 m ≠ 0#52 := by
      intro hzero
      rw [hzero] at hmantissa
      exact h.pos.ne hmantissa
    change UnpackedFloat.unpack Format.binary64 (UnpackedFloat.pack Format.binary64 _) = _
    rw [pack_subnormal h.pos hsmall]
    unfold UnpackedFloat.unpack
    simp only [unpackMantissa_packComponents, unpackExponent_packComponents,
      unpackSign_packComponents, Sign.ofBitVec_toBitVec]
    rw [if_neg (by decide), if_pos trivial, dif_neg hne]
    simp only [hmantissa]
    rfl
  · exact unpack_pack h.pos hlarge h.upper h.least h.greatest

theorem scaled_eq (p q : Nat) (s t : Int) :
    ((p * 10 ^ s.toNat * 2 ^ (-t).toNat : Nat) : ℚ) =
        p * 10 ^ s * (10 ^ (-s).toNat * 2 ^ (-t).toNat) ∧
      ((q * 2 ^ t.toNat * 10 ^ (-s).toNat : Nat) : ℚ) =
        q * 2 ^ t * (10 ^ (-s).toNat * 2 ^ (-t).toNat) := by
  push_cast
  rw [pow_toNat (by norm_num : (10 : ℚ) ≠ 0) s, pow_toNat (by norm_num : (2 : ℚ) ≠ 0) t]
  exact ⟨by ring, by ring⟩

theorem scaled_le (p q : Nat) (s t : Int) :
    p * 10 ^ s.toNat * 2 ^ (-t).toNat ≤ q * 2 ^ t.toNat * 10 ^ (-s).toNat ↔
      (p * 10 ^ s : ℚ) ≤ q * 2 ^ t := by
  have hpos : (0 : ℚ) < 10 ^ (-s).toNat * 2 ^ (-t).toNat := by positivity
  rw [← Nat.cast_le (α := ℚ), (scaled_eq p q s t).1, (scaled_eq p q s t).2,
    mul_le_mul_iff_left₀ hpos]

theorem scaled_ge (p q : Nat) (s t : Int) :
    q * 2 ^ t.toNat * 10 ^ (-s).toNat ≤ p * 10 ^ s.toNat * 2 ^ (-t).toNat ↔
      (q * 2 ^ t : ℚ) ≤ p * 10 ^ s := by
  have hpos : (0 : ℚ) < 10 ^ (-s).toNat * 2 ^ (-t).toNat := by positivity
  rw [← Nat.cast_le (α := ℚ), (scaled_eq p q s t).1, (scaled_eq p q s t).2,
    mul_le_mul_iff_left₀ hpos]

namespace Decimal

def value (d : Decimal) : ℚ := d.digits * 10 ^ d.exponent

theorem strip_value (fuel : Nat) (d : Decimal) : (d.strip fuel).value = d.value := by
  induction fuel generalizing d with
  | zero => rfl
  | succ fuel ih =>
      rw [strip]
      split
      next hzero =>
        have hdigits : d.digits = 10 * (d.digits / 10) := by
          have hsplit := Nat.div_add_mod d.digits 10
          omega
        rw [ih, value, value, zpow_add_one₀ (by norm_num)]
        conv_rhs => rw [hdigits]
        push_cast
        ring
      next => rfl

theorem normal_value (d : Decimal) : d.normal.value = d.value := by
  rw [normal]
  split
  next hzero => simp [value, hzero]
  next => exact strip_value ..

theorem ofDyadic_value (m : Dyadic) : (ofDyadic m).value = m.coefficient * 2 ^ m.exponent := by
  obtain ⟨c, e⟩ := m
  rw [ofDyadic, value, Dyadic.num]
  rcases Int.le_total 0 e with h | h
  · obtain ⟨k, rfl⟩ := Int.eq_ofNat_of_zero_le h
    simp
  · obtain ⟨k, rfl⟩ : ∃ k : Nat, e = -k := ⟨(-e).toNat, by omega⟩
    have hmin : min 0 (-(k : Int)) = -k := by omega
    have hpow : (10 : ℚ) ^ k = 2 ^ k * 5 ^ k := by rw [← mul_pow]; norm_num
    simp only [hmin, neg_neg, Int.toNat_natCast, Int.toNat_neg_natCast, zpow_neg, zpow_natCast,
      hpow, Nat.pow_eq]
    push_cast
    field_simp

/-- The quarter units from zero to the lower end of what reads back. -/
def quartersBelow (x : Float) : Nat :=
  if Dyadic.crowdedBelow x then 4 * (Dyadic.ofFloat x).coefficient - 1
  else 4 * (Dyadic.ofFloat x).coefficient - 2

theorem readsBack_iff (x : Float) (d : Decimal) :
    readsBack x d = true ↔
      let m := Dyadic.ofFloat x
      if m.coefficient % 2 = 0 then
        (quartersBelow x * 2 ^ m.exponent : ℚ) ≤ 4 * d.value ∧
          4 * d.value ≤ (4 * m.coefficient + 2) * 2 ^ m.exponent
      else
        (quartersBelow x * 2 ^ m.exponent : ℚ) < 4 * d.value ∧
          4 * d.value < (4 * m.coefficient + 2) * 2 ^ m.exponent := by
  have hvalue : 4 * d.value = (4 * d.digits : Nat) * 10 ^ d.exponent := by
    rw [value]
    push_cast
    ring
  have habove (c : Nat) : (4 * c + 2 : ℚ) = (4 * c + 2 : Nat) := by push_cast; rfl
  have hbelow : quartersBelow x = if Dyadic.crowdedBelow x then
    4 * (Dyadic.ofFloat x).coefficient - 1 else 4 * (Dyadic.ofFloat x).coefficient - 2 := rfl
  unfold readsBack
  simp only [Nat.pow_eq, hvalue, habove, ← hbelow, ← scaled_le, ← scaled_ge, ← not_le]
  split <;> simp

theorem crowdedBelow_of_power {x : Float} (hpower : (Dyadic.ofFloat x).coefficient = 2 ^ 52)
    (hexponent : -1074 < (Dyadic.ofFloat x).exponent) : Dyadic.crowdedBelow x = true := by
  have hfraction := Dyadic.fraction_lt x
  unfold Dyadic.ofFloat at hpower hexponent
  rw [Dyadic.crowdedBelow]
  cases hb : Dyadic.biased x with
  | zero =>
      rw [hb] at hpower
      exact absurd hpower hfraction.ne
  | succ e =>
      rw [hb] at hpower hexponent
      have hzero : Dyadic.fraction x = 0 := Nat.add_left_cancel (hpower.trans (Nat.add_zero _).symm)
      have hlt : 1 < e + 1 := by
        dsimp only at hexponent
        omega
      rw [hzero, decide_eq_true hlt]
      rfl

theorem near_of_readsBack {x : Float} {d : Decimal} (hne : (Dyadic.ofFloat x).coefficient ≠ 0)
    (h : readsBack x d = true) :
    Near d.value (Dyadic.ofFloat x).coefficient (Dyadic.ofFloat x).exponent := by
  have hcrowded := crowdedBelow_of_power (x := x)
  have hquarters : quartersBelow x = if Dyadic.crowdedBelow x then
    4 * (Dyadic.ofFloat x).coefficient - 1 else 4 * (Dyadic.ofFloat x).coefficient - 2 := rfl
  rw [readsBack_iff] at h
  generalize Dyadic.crowdedBelow x = crowded at *
  generalize quartersBelow x = q at *
  generalize Dyadic.ofFloat x = m at *
  obtain ⟨c, e⟩ := m
  dsimp only at *
  have hpow : (0 : ℚ) < 2 ^ e := zpow_pos (by norm_num) e
  have hbelow : ((4 * c : ℚ) - 2) * 2 ^ e ≤ q * 2 ^ e := by
    have hq : 4 * c ≤ q + 2 := by
      rw [hquarters]
      split <;> omega
    have hq' : (4 * c : ℚ) ≤ q + 2 := by exact_mod_cast hq
    exact mul_le_mul_of_nonneg_right (by linarith) hpow.le
  have hpower : c = 2 ^ 52 → -1074 < e → ((4 * c : ℚ) - 1) * 2 ^ e ≤ q * 2 ^ e := by
    intro hc he
    have hq : 4 * c = q + 1 := by
      rw [hquarters, hcrowded hc he, if_pos rfl]
      omega
    have hq' : (4 * c : ℚ) = q + 1 := by exact_mod_cast hq
    exact mul_le_mul_of_nonneg_right (by linarith) hpow.le
  split at h
  next heven =>
    refine ⟨by linarith, by linarith, fun _ => heven, fun hc he => ?_⟩
    linarith [hpower hc he]
  next hodd =>
    refine ⟨by linarith, by linarith, ?_, fun hc he => ?_⟩
    · rintro (htie | htie) <;> linarith
    · linarith [hpower hc he]

theorem near_self {m : Nat} {e : Int} : Near (m * 2 ^ e) m e := by
  have hpow : (0 : ℚ) < 2 ^ e := zpow_pos (by norm_num) e
  refine ⟨by linarith, by linarith, ?_, fun _ _ => by linarith⟩
  rintro (htie | htie) <;> linarith

theorem readsBack_of_onGrid {tie : Tie} {x : Float} {e : Int} {d : Decimal}
    (h : onGrid tie x e = some d) : readsBack x d = true := by
  unfold onGrid at h
  dsimp only at h
  split at h
  next => cases h
  next hdown hup =>
    cases h
    exact hdown
  next hdown hup =>
    cases h
    exact hup
  next hdown hup =>
    split at h
    next => cases h; exact hdown
    next => cases h; exact hup
    next =>
      cases h
      split
      next => exact hup
      next => exact hdown

/-- The shortest decimal of a double is near to it. -/
theorem shortest_near (tie : Tie) {x : Float} (hne : (Dyadic.ofFloat x).coefficient ≠ 0) :
    Near (shortest tie x).value (Dyadic.ofFloat x).coefficient (Dyadic.ofFloat x).exponent := by
  unfold shortest
  dsimp only
  split
  next d hfound =>
    obtain ⟨e, -, he⟩ := List.exists_of_findSome?_eq_some hfound
    rw [normal_value]
    exact near_of_readsBack hne (readsBack_of_onGrid he)
  next =>
    rw [normal_value, ofDyadic_value]
    exact near_self

end Decimal

end Arbor
