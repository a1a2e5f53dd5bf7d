import Arbor.Proofs.ShortestDecimals
import Arbor.Scalar.Double
import Arbor.Scalar.Real

namespace Arbor

class OrderedScalar (α : Type) [Scalar α] : Prop where
  total (a b : α) : (a == a) = true → (b == b) = true → a ≤ b ∨ b ≤ a

/-- Numbers are ordered, and what is not a number is not compared. Nothing is rounded when doubles
are compared, so this holds of them as of the reals. -/
class ComparedScalar (α : Type) [Scalar α] : Prop extends OrderedScalar α where
  trans {a b c : α} : a ≤ b → b ≤ c → a ≤ c
  number {a b : α} : a ≤ b → (a == a) = true ∧ (b == b) = true
  not_lt {a b : α} : a ≤ b → ¬ b < a
  zero : ((0 : α) == 0) = true
  abs_mono {a b : α} : 0 ≤ a → a ≤ b → Scalar.abs a ≤ Scalar.abs b
  abs_anti {a b : α} : a ≤ b → b ≤ 0 → Scalar.abs b ≤ Scalar.abs a

namespace Scalar

variable {α : Type} [Scalar α]

theorem le_self [OrderedScalar α] {a : α} (h : (a == a) = true) : a ≤ a :=
  (OrderedScalar.total a a h h).elim id id

theorem le_greater [OrderedScalar α] (a : α) {b : α} (hb : (b == b) = true) : b ≤ greater a b := by
  unfold greater
  split
  next ha =>
    split
    next => exact le_self hb
    next hlt => exact (OrderedScalar.total a b ha hb).resolve_left hlt
  next => exact le_self hb

theorem lesser_le [OrderedScalar α] (a : α) {b : α} (hb : (b == b) = true) : lesser a b ≤ b := by
  unfold lesser
  split
  next ha =>
    split
    next => exact le_self hb
    next hlt => exact (OrderedScalar.total a b ha hb).resolve_right hlt
  next => exact le_self hb

theorem le_greater_left [OrderedScalar α] {a : α} (ha : (a == a) = true) (b : α) :
    a ≤ greater a b := by
  rw [greater, if_pos ha]
  split
  next hle => exact hle
  next => exact le_self ha

theorem lesser_le_left [OrderedScalar α] {a : α} (ha : (a == a) = true) (b : α) :
    lesser a b ≤ a := by
  rw [lesser, if_pos ha]
  split
  next hle => exact hle
  next => exact le_self ha

theorem greater_le {a b c : α} (ha : a ≤ c) (hb : b ≤ c) : greater a b ≤ c := by
  unfold greater
  split_ifs
  · exact hb
  · exact ha
  · exact hb

theorem le_lesser {a b c : α} (ha : c ≤ a) (hb : c ≤ b) : c ≤ lesser a b := by
  unfold lesser
  split_ifs
  · exact hb
  · exact ha
  · exact hb

theorem clamp_eq_self [ComparedScalar α] {x lo hi : α} (hlo : lo ≤ x) (hhi : x ≤ hi) :
    clamp x lo hi = x := by
  rw [clamp, if_neg (ComparedScalar.not_lt hlo), if_neg (ComparedScalar.not_lt hhi)]

theorem abs_le_greater [ComparedScalar α] {a b x : α} (ha : a ≤ x) (hb : x ≤ b) :
    abs x ≤ greater (abs a) (abs b) := by
  obtain ⟨-, hx⟩ := ComparedScalar.number ha
  obtain ⟨-, hnumber⟩ := ComparedScalar.number hb
  have habs {y : α} (hy : (y == y) = true) : abs y ≤ abs y := by
    rcases OrderedScalar.total 0 y ComparedScalar.zero hy with h | h
    · exact ComparedScalar.abs_mono h (le_self hy)
    · exact ComparedScalar.abs_anti (le_self hy) h
  rcases OrderedScalar.total 0 x ComparedScalar.zero hx with h | h
  · exact ComparedScalar.trans (ComparedScalar.abs_mono h hb)
      (le_greater _ (ComparedScalar.number (habs hnumber)).1)
  · have hle := ComparedScalar.abs_anti ha h
    exact ComparedScalar.trans hle (le_greater_left (ComparedScalar.number hle).2 _)

end Scalar

instance : OrderedScalar ℝ where
  total a b _ _ := le_total a b

instance : ComparedScalar ℝ where
  trans := le_trans
  number _ := ⟨decide_eq_true rfl, decide_eq_true rfl⟩
  not_lt := not_lt.mpr
  zero := decide_eq_true rfl
  abs_mono ha hab := abs_le_abs_of_nonneg ha hab
  abs_anti hab hb := abs_le_abs_of_nonpos hb hab

namespace UnpackedDouble

open Float.Model Float.Model.UnpackedFloat

def factor : Sign → Int
  | .negative => -1
  | .positive => 1

/-- Where a number stands among the others: its size and, if it is finite, its exponent and its
mantissa. -/
def rank : UnpackedFloat → Int × Int × Int
  | .notANumber | .zero _ => 0
  | .infinity s => (2 * factor s, 0, 0)
  | .finite s m e _ => (factor s, factor s * e, factor s * m)

def RankLE (p q : Int × Int × Int) : Prop :=
  p.1 < q.1 ∨ p.1 = q.1 ∧ (p.2.1 < q.2.1 ∨ p.2.1 = q.2.1 ∧ p.2.2 ≤ q.2.2)

namespace RankLE

variable {p q r : Int × Int × Int}

theorem total (p q : Int × Int × Int) : RankLE p q ∨ RankLE q p := by
  unfold RankLE
  omega

theorem trans (hpq : RankLE p q) (hqr : RankLE q r) : RankLE p r := by
  unfold RankLE at *
  omega

theorem neg (h : RankLE p q) : RankLE (-q) (-p) := by
  simp only [RankLE, Prod.fst_neg, Prod.snd_neg] at *
  omega

end RankLE

theorem isLE_compare_sign (s t : Sign) : (compare s t).isLE = true ↔ factor s ≤ factor t := by
  cases s <;> cases t <;> decide

theorem isLE_then {e e' : Int} {m m' : Nat} : ((compare e e').then (compare m m')).isLE = true ↔
    e < e' ∨ e = e' ∧ m ≤ m' := by
  rw [Ordering.isLE_then_iff_or, Int.compare_eq_lt, Int.compare_eq_eq, Nat.isLE_compare]

theorem isGE_then {e e' : Int} {m m' : Nat} : ((compare e e').then (compare m m')).isGE = true ↔
    e' < e ∨ e = e' ∧ m' ≤ m := by
  have he : compare e' e = (compare e e').swap := Std.OrientedCmp.eq_swap
  have hm : compare m' m = (compare m m').swap := Std.OrientedCmp.eq_swap
  rw [← Ordering.isLE_swap, Ordering.swap_then, ← he, ← hm, isLE_then, eq_comm]

theorem beq_self {a : UnpackedFloat} : a.beq a = true ↔ a ≠ .notANumber := by
  cases a with
  | notANumber => exact iff_of_false nofun fun h => h rfl
  | infinity s => cases s <;> exact iff_of_true rfl nofun
  | zero s => exact iff_of_true rfl nofun
  | finite s => cases s <;> simp [UnpackedFloat.beq, UnpackedFloat.compare]

theorem le_iff {a b : UnpackedFloat} : a.le b = true ↔
    a ≠ .notANumber ∧ b ≠ .notANumber ∧ RankLE (rank a) (rank b) := by
  unfold UnpackedFloat.le RankLE
  cases a with
  | notANumber => simp [UnpackedFloat.compare]
  | infinity s =>
      cases b with
      | infinity t =>
          cases s <;> cases t <;> simp [UnpackedFloat.compare, isLE_compare_sign, rank, factor]
      | finite t => cases s <;> cases t <;> simp [UnpackedFloat.compare, rank, factor]
      | notANumber | zero => cases s <;> simp [UnpackedFloat.compare, rank, factor]
  | zero s =>
      cases b with
      | infinity t | finite t => cases t <;> simp [UnpackedFloat.compare, rank, factor]
      | notANumber | zero => simp [UnpackedFloat.compare, rank]
  | finite s =>
      cases b with
      | infinity t => cases s <;> cases t <;> simp [UnpackedFloat.compare, rank, factor]
      | finite t =>
          cases s <;> cases t <;> simp [UnpackedFloat.compare, rank, factor, isLE_then, isGE_then]
      | notANumber | zero => cases s <;> simp [UnpackedFloat.compare, rank, factor]

theorem swap_then_compare {e e' : Int} {m m' : Nat} :
    ((compare e e').then (compare m m')).swap = (compare e' e).then (compare m' m) := by
  rw [Ordering.swap_then, ← Std.OrientedCmp.eq_swap, ← Std.OrientedCmp.eq_swap]

theorem compare_swap (a b : UnpackedFloat) : (a.compare b).map Ordering.swap = b.compare a := by
  cases a with
  | notANumber => cases b <;> rfl
  | infinity s =>
      cases b with
      | infinity t | finite t => cases s <;> cases t <;> rfl
      | notANumber => rfl
      | zero => cases s <;> rfl
  | zero s =>
      cases b with
      | infinity t | finite t => cases t <;> rfl
      | notANumber | zero => rfl
  | finite s =>
      cases b with
      | infinity t => cases s <;> cases t <;> rfl
      | finite t => cases s <;> cases t <;> simp [UnpackedFloat.compare, swap_then_compare]
      | notANumber | zero => cases s <;> rfl

theorem not_lt_of_le {a b : UnpackedFloat} (h : a.le b = true) : ¬ b.lt a = true := by
  intro hlt
  have hswap := compare_swap b a
  rw [eq_of_beq hlt] at hswap
  rw [UnpackedFloat.le, ← hswap] at h
  cases h

theorem rank_abs (a : UnpackedFloat) :
    (RankLE 0 (rank a) → rank a.abs = rank a) ∧ (RankLE (rank a) 0 → rank a.abs = -rank a) := by
  cases a with
  | notANumber | zero => simp [UnpackedFloat.abs, rank]
  | infinity s | finite s => cases s <;> simp [UnpackedFloat.abs, rank, factor, RankLE]

theorem abs_eq_notANumber {a : UnpackedFloat} : a.abs = .notANumber ↔ a = .notANumber := by
  cases a <;> simp [UnpackedFloat.abs]

theorem unpack_pack_special : ∀ a ∈ [zero .positive, infinity .positive, notANumber],
    (Float.Model.pack a).unpack = a := by
  simp only [List.forall_mem_cons, List.not_mem_nil, false_imp_iff, implies_true, and_true]
  refine ⟨?_, ?_, ?_⟩ <;> with_unfolding_all rfl

theorem unpack_abs (x : Float) : x.abs.toModel.unpack = x.toModel.unpack.abs := by
  change (Float.Model.pack x.toModel.unpack.abs).unpack = x.toModel.unpack.abs
  by_cases hfinite : x.isFinite = true
  · rw [Dyadic.unpack_eq hfinite]
    split
    next => exact unpack_pack_special _ (by simp [UnpackedFloat.abs])
    next hne => exact unpack_pack_canonical (Dyadic.canonical hfinite hne)
  · have hunpacked : x.toModel.unpack.isFinite ≠ true := hfinite
    cases hx : x.toModel.unpack with
    | notANumber | infinity => exact unpack_pack_special _ (by simp [UnpackedFloat.abs])
    | zero | finite => simp [hx, UnpackedFloat.isFinite] at hunpacked

theorem double_le_iff {x y : Float} : x ≤ y ↔ x.toModel.unpack ≠ .notANumber ∧
    y.toModel.unpack ≠ .notANumber ∧ RankLE (rank x.toModel.unpack) (rank y.toModel.unpack) :=
  decide_eq_true_iff.trans le_iff

theorem double_beq_self {x : Float} : (x == x) = true ↔ x.toModel.unpack ≠ .notANumber :=
  beq_self

theorem rank_zero : rank (0.0 : Float).toModel.unpack = 0 := by
  with_unfolding_all rfl

end UnpackedDouble

open UnpackedDouble in
instance : OrderedScalar Float where
  total x y hx hy := by
    rw [double_beq_self] at hx hy
    rw [double_le_iff, double_le_iff]
    exact (RankLE.total _ _).imp (⟨hx, hy, ·⟩) (⟨hy, hx, ·⟩)

open UnpackedDouble in
instance : ComparedScalar Float where
  trans hxy hyz := by
    rw [double_le_iff] at *
    exact ⟨hxy.1, hyz.2.1, hxy.2.2.trans hyz.2.2⟩
  number hxy := by
    rw [double_le_iff] at hxy
    exact ⟨double_beq_self.mpr hxy.1, double_beq_self.mpr hxy.2.1⟩
  not_lt hxy hyx := not_lt_of_le (of_decide_eq_true hxy) (of_decide_eq_true hyx)
  zero := by decide
  abs_mono {x y} hx hxy := by
    change x.abs ≤ y.abs
    change 0.0 ≤ x at hx
    rw [double_le_iff, rank_zero] at hx
    rw [double_le_iff] at hxy
    rw [double_le_iff, unpack_abs, unpack_abs, (rank_abs _).1 hx.2.2,
      (rank_abs _).1 (hx.2.2.trans hxy.2.2), Ne, abs_eq_notANumber, Ne, abs_eq_notANumber]
    exact hxy
  abs_anti {x y} hxy hy := by
    change y.abs ≤ x.abs
    change y ≤ 0.0 at hy
    rw [double_le_iff, rank_zero] at hy
    rw [double_le_iff] at hxy
    rw [double_le_iff, unpack_abs, unpack_abs, (rank_abs _).2 hy.2.2,
      (rank_abs _).2 (hxy.2.2.trans hy.2.2), Ne, abs_eq_notANumber, Ne, abs_eq_notANumber]
    exact ⟨hxy.2.1, hxy.1, hxy.2.2.neg⟩

end Arbor
