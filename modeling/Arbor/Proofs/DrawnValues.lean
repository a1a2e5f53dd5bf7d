import Arbor.Random.Generator
import Arbor.Scalar.Real
import Mathlib.Tactic.Linarith

namespace Arbor

namespace Generator

theorem uniform_mem (g : Generator) : 0 ≤ (g.uniform (α := ℝ)).1 ∧ (g.uniform (α := ℝ)).1 < 1 := by
  have hword : (g.word >>> 11).toNat < 2 ^ 53 := by
    have hlt := g.word.toNat_lt
    have hshift : (g.word >>> 11).toNat = g.word.toNat / 2 ^ 11 := by
      rw [UInt64.toNat_shiftRight, Nat.shiftRight_eq_div_pow]
      rfl
    omega
  have hvalue : (g.uniform (α := ℝ)).1 =
      (((g.word >>> 11).toNat : Int) : ℝ) / ((2 ^ 53 : Nat) : Int) := rfl
  rw [hvalue, Int.cast_natCast, Int.cast_natCast]
  constructor
  · positivity
  · rw [div_lt_one (by positivity)]
    exact_mod_cast hword

theorem toInt_eq_cond (n : Int64) :
    n.toInt = if 2 * n.toUInt64.toNat < 2 ^ 64 then (n.toUInt64.toNat : Int)
      else n.toUInt64.toNat - (2 ^ 64 : Nat) :=
  BitVec.toInt_eq_toNat_cond n.toBitVec

theorem toNat_count {lo hi : Int64} (h : lo ≤ hi) :
    ((hi.toUInt64 - lo.toUInt64 + 1).toNat : Int) = (hi.toInt - lo.toInt + 1) % 2 ^ 64 := by
  have hle := Int64.le_iff_toInt_le.mp h
  have := lo.toUInt64.toNat_lt
  have := hi.toUInt64.toNat_lt
  have hone : (1 : UInt64).toNat = 1 := rfl
  rw [toInt_eq_cond, toInt_eq_cond] at *
  rw [UInt64.toNat_add, UInt64.toNat_sub, hone]
  split at hle <;> split at hle <;> omega

theorem toInt_offset {lo hi : Int64} {offset : UInt64}
    (h : lo.toInt + offset.toNat ≤ hi.toInt) :
    (lo.toUInt64 + offset).toInt64.toInt = lo.toInt + offset.toNat := by
  have := lo.toUInt64.toNat_lt
  have := hi.toUInt64.toNat_lt
  have := offset.toNat_lt
  rw [toInt_eq_cond lo, toInt_eq_cond hi] at h
  rw [toInt_eq_cond lo, toInt_eq_cond, UInt64.toUInt64_toInt64, UInt64.toNat_add]
  split at h <;> split at h <;> split <;> omega

theorem whole_lt {word count : Nat} (hword : word < UInt64.size) (hcount : 0 < count) :
    word * count / UInt64.size < count := by
  rw [Nat.div_lt_iff_lt_mul (by decide), Nat.mul_comm count]
  exact Nat.mul_lt_mul_of_pos_right hword hcount

/-- The last integer of a range leaves nothing to a second word. -/
theorem whole_succ_lt {word count : Nat} (hword : word < UInt64.size)
    (hrest : UInt64.size - count < word * count % UInt64.size) :
    word * count / UInt64.size + 1 < count := by
  have hle : word * count ≤ (UInt64.size - 1) * count :=
    Nat.mul_le_mul_right count (Nat.le_sub_one_of_lt hword)
  generalize word * count = scaled at *
  simp only [UInt64.size] at *
  omega

theorem integer_eq_none {g : Generator} {lo hi : Int64} : g.integer lo hi = none ↔ hi < lo := by
  unfold integer
  split
  next h => exact iff_of_true rfl h
  next h =>
    refine iff_of_false ?_ h
    dsimp only
    split
    · nofun
    · split
      · nofun
      · nofun

theorem le_of_integer {g g' : Generator} {lo hi n : Int64}
    (h : g.integer lo hi = some (n, g')) : lo ≤ hi := by
  by_contra hlt
  have hnone : g.integer lo hi = none := integer_eq_none.mpr (Int64.not_le.mp hlt)
  cases hnone.symm.trans h

/-- A count that is lost in 64 bits is that of all integers. -/
theorem mem_of_count_eq_zero {lo hi : Int64} (hle : lo ≤ hi)
    (h : hi.toUInt64 - lo.toUInt64 + 1 = 0) (n : Int64) : lo ≤ n ∧ n ≤ hi := by
  have hcount := toNat_count hle
  rw [h, UInt64.toNat_zero] at hcount
  rw [Int64.le_iff_toInt_le] at hle ⊢
  rw [Int64.le_iff_toInt_le]
  have := lo.le_toInt
  have := hi.toInt_lt
  have := n.le_toInt
  have := n.toInt_lt
  omega

theorem settled_mem {lo hi : Int64} {offset : UInt64} (hle : lo ≤ hi)
    (h : offset < hi.toUInt64 - lo.toUInt64 + 1) :
    lo ≤ (lo.toUInt64 + offset).toInt64 ∧ (lo.toUInt64 + offset).toInt64 ≤ hi := by
  have hcount := toNat_count hle
  rw [UInt64.lt_iff_toNat_lt] at h
  rw [Int64.le_iff_toInt_le] at hle
  have hoffset : lo.toInt + offset.toNat ≤ hi.toInt := by omega
  rw [Int64.le_iff_toInt_le, Int64.le_iff_toInt_le, toInt_offset hoffset]
  omega

theorem integer_settles {g g' : Generator} {lo hi n : Int64}
    (h : g.integer lo hi = some (n, g')) (hne : hi.toUInt64 - lo.toUInt64 + 1 ≠ 0) :
    ∃ offset < hi.toUInt64 - lo.toUInt64 + 1, (lo.toUInt64 + offset).toInt64 = n := by
  unfold integer at h
  rw [if_neg (Int64.not_lt.mpr (le_of_integer h))] at h
  dsimp only at h
  rw [if_neg hne] at h
  generalize hi.toUInt64 - lo.toUInt64 + 1 = count at hne h ⊢
  have hword := g.word.toNat_lt
  have hpos : 0 < count.toNat := Nat.pos_of_ne_zero fun h0 => hne (UInt64.toNat_inj.mp h0)
  have hlt := whole_lt hword hpos
  have hcast : (g.word.toNat * count.toNat / UInt64.size).toUInt64.toNat =
      g.word.toNat * count.toNat / UInt64.size :=
    UInt64.toNat_ofNat_of_lt' (hlt.trans count.toNat_lt)
  have hwhole : (g.word.toNat * count.toNat / UInt64.size).toUInt64 < count := by
    rw [UInt64.lt_iff_toNat_lt, hcast]
    exact hlt
  split at h
  next =>
    cases h
    exact ⟨_, hwhole, rfl⟩
  next hrest =>
    cases h
    refine ⟨_, ?_, rfl⟩
    split
    · exact hwhole
    · have hone : (1 : UInt64).toNat = 1 := rfl
      have hsucc := whole_succ_lt hword (Nat.lt_of_not_le hrest)
      have hsize := count.toNat_lt
      rw [UInt64.lt_iff_toNat_lt, UInt64.toNat_add, hcast, hone]
      omega

theorem integer_mem {g g' : Generator} {lo hi n : Int64} (h : g.integer lo hi = some (n, g')) :
    lo ≤ n ∧ n ≤ hi := by
  have hle := le_of_integer h
  by_cases hzero : hi.toUInt64 - lo.toUInt64 + 1 = 0
  · exact mem_of_count_eq_zero hle hzero n
  · obtain ⟨offset, hoffset, rfl⟩ := integer_settles h hzero
    exact settled_mem hle hoffset

end Generator

end Arbor
