import Mathlib.Tactic.FieldSimp
import Mathlib.Tactic.Linarith
import Mathlib.Tactic.NormNum
import Mathlib.Tactic.Ring
import Arbor.Proofs.ExactScalars

namespace Arbor

variable {α : Type}

/-- Weights of a triangle at which a squared distance does not fall towards any corner. The edges
have the squared lengths `l` and `m` and the product `k`; their products with the way to the point
are `x` and `y`. -/
structure LeastWeights [ExactScalar α] (x y l m k v w : α) : Prop where
  first_nonneg : 0 ≤ v
  second_nonneg : 0 ≤ w
  sum_le : v + w ≤ 1
  origin : v * (v * l + w * k - x) + w * (v * k + w * m - y) ≤ 0
  along_first : v * (v * l + w * k - x) + w * (v * k + w * m - y) ≤ v * l + w * k - x
  along_second : v * (v * l + w * k - x) + w * (v * k + w * m - y) ≤ v * k + w * m - y

namespace LeastWeights

variable [ExactScalar α] {x y l m k v w : α}

theorem swap (h : LeastWeights y x m l k w v) : LeastWeights x y l m k v w where
  first_nonneg := h.second_nonneg
  second_nonneg := h.first_nonneg
  sum_le := add_comm v w ▸ h.sum_le
  origin := by linarith [h.origin]
  along_first := by linarith [h.along_second]
  along_second := by linarith [h.along_first]

theorem corner_a (hx : x ≤ 0) (hy : y ≤ 0) : LeastWeights x y l m k 0 0 := by
  constructor <;> linarith

theorem corner_b (hx : 0 ≤ x - l) (hy : y - k ≤ x - l) : LeastWeights x y l m k 1 0 := by
  constructor <;> linarith

theorem edge_ab (hl : 0 < l) (hx : 0 ≤ x) (hxl : x - l ≤ 0) (h : l * y - k * x ≤ 0) :
    LeastWeights x y l m k (x / l) 0 := by
  have hflat : x / l * l - x = 0 := by rw [div_mul_cancel₀ _ hl.ne', sub_self]
  have hrise : 0 ≤ x / l * k - y := by
    rw [div_mul_eq_mul_div, sub_nonneg, le_div_iff₀ hl]
    linarith
  have hle : x / l ≤ 1 := (div_le_one hl).mpr (by linarith)
  refine ⟨div_nonneg hx hl.le, le_rfl, by rwa [add_zero], ?_, ?_, ?_⟩ <;>
    simp only [zero_mul, add_zero, hflat, mul_zero, le_refl, hrise]

theorem edge_bc (hn : 0 < l - 2 * k + m) (hb : 0 ≤ (y - k) - (x - l)) (hc : 0 ≤ (x - k) - (y - m))
    (h : l * m - k * k - (m * x - k * y) - (l * y - k * x) ≤ 0) :
    LeastWeights x y l m k (1 - ((y - k) - (x - l)) / (l - 2 * k + m))
      (((y - k) - (x - l)) / (l - 2 * k + m)) := by
  have hle : ((y - k) - (x - l)) / (l - 2 * k + m) ≤ 1 := (div_le_one hn).mpr (by linarith)
  have hfoot : ((y - k) - (x - l)) / (l - 2 * k + m) * (l - 2 * k + m) = (y - k) - (x - l) :=
    div_mul_cancel₀ _ hn.ne'
  have hnonneg := div_nonneg hb hn.le
  generalize ((y - k) - (x - l)) / (l - 2 * k + m) = w at *
  -- the distance changes as much towards one end of the edge as towards the other
  have hsame : (1 - w) * k + w * m - y = (1 - w) * l + w * k - x := by linarith
  have hfall : (1 - w) * l + w * k - x ≤ 0 := by
    have hscaled : ((1 - w) * l + w * k - x) * (l - 2 * k + m) ≤ 0 := by
      have hexpand : ((1 - w) * l + w * k - x) * (l - 2 * k + m) =
          (l - x) * (l - 2 * k + m) - w * (l - 2 * k + m) * (l - k) := by ring
      rw [hexpand, hfoot]
      linarith
    exact nonpos_of_mul_nonpos_left hscaled hn
  have hsum : (1 - w) * ((1 - w) * l + w * k - x) + w * ((1 - w) * k + w * m - y) =
      (1 - w) * l + w * k - x := by
    rw [hsame]
    ring
  refine ⟨by linarith, hnonneg, by linarith, ?_, ?_, ?_⟩
  · exact hsum.trans_le hfall
  · exact hsum.le
  · exact (hsum.trans hsame.symm).le

theorem face (hc : 0 ≤ l * y - k * x) (hb : 0 ≤ m * x - k * y)
    (ha : 0 ≤ l * m - k * k - (m * x - k * y) - (l * y - k * x)) (hd : 0 < l * m - k * k) :
    LeastWeights x y l m k ((m * x - k * y) / (l * m - k * k))
      ((l * y - k * x) / (l * m - k * k)) := by
  have hfirst : (m * x - k * y) / (l * m - k * k) * l + (l * y - k * x) / (l * m - k * k) * k - x =
      0 := by
    rw [div_mul_eq_mul_div, div_mul_eq_mul_div, ← add_div, sub_eq_zero, div_eq_iff hd.ne']
    ring
  have hsecond : (m * x - k * y) / (l * m - k * k) * k + (l * y - k * x) / (l * m - k * k) * m - y =
      0 := by
    rw [div_mul_eq_mul_div, div_mul_eq_mul_div, ← add_div, sub_eq_zero, div_eq_iff hd.ne']
    ring
  refine ⟨div_nonneg hb hd.le, div_nonneg hc hd.le, ?_, ?_, ?_, ?_⟩
  · rw [← add_div, div_le_one hd]
    linarith
  all_goals rw [hfirst, hsecond, mul_zero, mul_zero, add_zero]

theorem least (h : LeastWeights x y l m k v w) {v' w' : α} (hv : 0 ≤ v') (hw : 0 ≤ w')
    (hsum : v' + w' ≤ 1) (hl : 0 < l) (hk : k * k ≤ l * m) :
    v * v * l + 2 * v * w * k + w * w * m - 2 * (v * x + w * y) ≤
      v' * v' * l + 2 * v' * w' * k + w' * w' * m - 2 * (v' * x + w' * y) := by
  obtain ⟨-, -, -, horigin, hfirst, hsecond⟩ := h
  generalize hs : v * (v * l + w * k - x) + w * (v * k + w * m - y) = s at *
  have hcorners : (1 - v' - w') * s + v' * s + w' * s ≤
      v' * (v * l + w * k - x) + w' * (v * k + w * m - y) := by
    have ha : (1 - v' - w') * s ≤ 0 := mul_nonpos_of_nonneg_of_nonpos (by linarith) horigin
    linarith [mul_le_mul_of_nonneg_left hfirst hv, mul_le_mul_of_nonneg_left hsecond hw]
  have hquadratic : 0 ≤ (v' - v) * (v' - v) * l + 2 * (v' - v) * (w' - w) * k +
      (w' - w) * (w' - w) * m := by
    refine nonneg_of_mul_nonneg_right ?_ hl
    linarith [mul_self_nonneg ((v' - v) * l + (w' - w) * k),
      mul_nonneg (sub_nonneg.mpr hk) (mul_self_nonneg (w' - w))]
  linarith

end LeastWeights

structure Facing [ExactScalar α] (x y l m k : α) : Prop where
  not_a : ¬ (x ≤ 0 ∧ y ≤ 0)
  not_b : ¬ (0 ≤ x - l ∧ y - k ≤ x - l)
  not_c : ¬ (0 ≤ y - m ∧ x - k ≤ y - m)
  not_ab : ¬ (l * y - k * x ≤ 0 ∧ 0 ≤ x ∧ x - l ≤ 0)
  not_ac : ¬ (m * x - k * y ≤ 0 ∧ 0 ≤ y ∧ y - m ≤ 0)
  not_bc : ¬ (l * m - k * k - (m * x - k * y) - (l * y - k * x) ≤ 0 ∧
    0 ≤ y - k - (x - l) ∧ 0 ≤ x - k - (y - m))

namespace Facing

variable [ExactScalar α] {x y l m k : α}

theorem swap (h : Facing x y l m k) : Facing y x m l k where
  not_a := fun ⟨hy, hx⟩ => h.not_a ⟨hx, hy⟩
  not_b := h.not_c
  not_c := h.not_b
  not_ab := h.not_ac
  not_ac := h.not_ab
  not_bc := fun ⟨ha, hc, hb⟩ => h.not_bc ⟨by linarith, hb, hc⟩

/-- Such a point does not lie behind the first edge. Where it does, it is beyond an end of it, and
the tests of the corner there and of the other edge at that corner leave no room for it. -/
theorem inside_ab (h : Facing x y l m k) (hl : 0 < l) (hk : k * k ≤ l * m) :
    0 < l * y - k * x := by
  by_contra hle
  rw [not_lt] at hle
  rcases lt_or_ge x 0 with hx | hx
  · have hy : 0 < y := not_le.mp fun hy => h.not_a ⟨hx.le, hy⟩
    have hkneg : k < 0 := by
      have hprod : 0 < k * x := by linarith [mul_pos hl hy]
      exact neg_of_mul_pos_left hprod hx.le
    have hac : m * x - k * y ≤ 0 := by
      have hscaled : l * (m * x - k * y) ≤ (l * m - k * k) * x := by
        linarith [mul_le_mul_of_nonpos_left (sub_nonpos.mp hle) hkneg.le]
      have hdet : (l * m - k * k) * x ≤ 0 :=
        mul_nonpos_of_nonneg_of_nonpos (sub_nonneg.mpr hk) hx.le
      exact nonpos_of_mul_nonpos_right (hscaled.trans hdet) hl
    have hym : m < y := not_le.mp fun hym => h.not_ac ⟨hac, hy.le, by linarith⟩
    have hc : y - m < x - k := not_le.mp fun hc => h.not_c ⟨by linarith, hc⟩
    have hkx : k * x < k * (y - m + k) := mul_lt_mul_of_neg_left (by linarith) hkneg
    have hpos : 0 < (l - k) * (y - m) := mul_pos (by linarith) (by linarith)
    linarith
  · have hxl : l < x := not_le.mp fun hxl => h.not_ab ⟨hle, hx, by linarith⟩
    have hb : x - l < y - k := not_le.mp fun hb => h.not_b ⟨by linarith, hb⟩
    have hly : l * (k + x - l) < l * y := mul_lt_mul_of_pos_left (by linarith) hl
    have hlk : l < k := by
      have hneg : (l - k) * (x - l) < 0 := by linarith
      linarith [neg_of_mul_neg_left hneg (by linarith : 0 ≤ x - l)]
    rcases le_or_gt 0 (x - k - (y - m)) with hc | hc
    · have hbc := not_le.mp fun hbc => h.not_bc ⟨hbc, by linarith, hc⟩
      have hedge : (k - l) * (l * y) ≤ (k - l) * (k * x) :=
        mul_le_mul_of_nonneg_left (by linarith) (by linarith)
      have hdet : (l * m - k * k) * l ≤ (l * m - k * k) * x :=
        mul_le_mul_of_nonneg_left hxl.le (sub_nonneg.mpr hk)
      have hscaled := mul_pos hl hbc
      linarith
    · have hym : y < m := not_le.mp fun hym => h.not_c ⟨by linarith, by linarith⟩
      have hxk : (k - l) * x < (k - l) * k := mul_lt_mul_of_pos_left (by linarith) (by linarith)
      have hlm : l * (m + x - k) < l * y := mul_lt_mul_of_pos_left (by linarith) hl
      linarith

theorem not_beyond_b (h : Facing x y l m k) (hl : 0 < l) (hk : k * k ≤ l * m)
    (hab : 0 < l * y - k * x) (hle : l * m - k * k - (m * x - k * y) - (l * y - k * x) ≤ 0) :
    0 ≤ y - k - (x - l) := by
  by_contra hlt
  rw [not_le] at hlt
  have hxl : x < l := not_le.mp fun hxl => h.not_b ⟨by linarith, by linarith⟩
  have hlk : l < k := by
    have hly : l * y < l * (k + x - l) := mul_lt_mul_of_pos_left (by linarith) hl
    have hpos : 0 < (k - l) * (l - x) := by linarith
    linarith [pos_of_mul_pos_left hpos (by linarith : 0 ≤ l - x)]
  have hedge : (k - l) * (k * x) < (k - l) * (l * y) :=
    mul_lt_mul_of_pos_left (by linarith) (by linarith)
  have hdet : (l * m - k * k) * x ≤ (l * m - k * k) * l :=
    mul_le_mul_of_nonneg_left hxl.le (sub_nonneg.mpr hk)
  have hscaled := mul_nonpos_of_nonneg_of_nonpos hl.le hle
  linarith

theorem inside_bc (h : Facing x y l m k) (hl : 0 < l) (hm : 0 < m) (hk : k * k ≤ l * m) :
    0 < l * m - k * k - (m * x - k * y) - (l * y - k * x) := by
  have hab := h.inside_ab hl hk
  have hac := h.swap.inside_ab hm (by linarith)
  by_contra hle
  rw [not_lt] at hle
  refine h.not_bc ⟨hle, h.not_beyond_b hl hk hab hle, ?_⟩
  exact h.swap.not_beyond_b hm (by linarith) hac (by linarith)

theorem leastWeights (h : Facing x y l m k) (hl : 0 < l) (hm : 0 < m) (hk : k * k ≤ l * m) :
    0 < l * m - k * k ∧ LeastWeights x y l m k ((m * x - k * y) / (l * m - k * k))
      ((l * y - k * x) / (l * m - k * k)) := by
  have hab := h.inside_ab hl hk
  have hac := h.swap.inside_ab hm (by linarith)
  have hbc := h.inside_bc hl hm hk
  have hdet : 0 < l * m - k * k := by linarith
  exact ⟨hdet, .face hab.le hac.le hbc.le hdet⟩

end Facing

structure Leg (α : Type) where
  edge : Vec3 α
  dividend : α
  divisor : α

structure Walk (α : Type) where
  start : Vec3 α
  legs : List (Leg α)

def Walk.goal [Scalar α] (walk : Walk α) : Vec3 α :=
  walk.legs.foldl (fun q leg => q + leg.edge * (leg.dividend / leg.divisor)) walk.start

namespace Triangle

/-- The search for the closest point, with all divisions that it makes. There is no way where it
falls back on the closest points of the edges. -/
def walk? [Scalar α] (t : Triangle α) (p : Vec3 α) : Option (Walk α) :=
  let ab := t.b - t.a
  let ac := t.c - t.a
  let d1 := ab.dot (p - t.a)
  let d2 := ac.dot (p - t.a)
  let d3 := ab.dot (p - t.b)
  let d4 := ac.dot (p - t.b)
  let d5 := ab.dot (p - t.c)
  let d6 := ac.dot (p - t.c)
  let vc := d1 * d4 - d3 * d2
  let vb := d5 * d2 - d1 * d6
  let va := d3 * d6 - d5 * d4
  let denominator := va + vb + vc
  if d1 ≤ 0 ∧ d2 ≤ 0 then some ⟨t.a, []⟩
  else if 0 ≤ d3 ∧ d4 ≤ d3 then some ⟨t.b, []⟩
  else if vc ≤ 0 ∧ 0 ≤ d1 ∧ d3 ≤ 0 then some ⟨t.a, [⟨ab, d1, d1 - d3⟩]⟩
  else if 0 ≤ d6 ∧ d5 ≤ d6 then some ⟨t.c, []⟩
  else if vb ≤ 0 ∧ 0 ≤ d2 ∧ d6 ≤ 0 then some ⟨t.a, [⟨ac, d2, d2 - d6⟩]⟩
  else if va ≤ 0 ∧ 0 ≤ d4 - d3 ∧ 0 ≤ d5 - d6 then
    some ⟨t.b, [⟨t.c - t.b, d4 - d3, (d4 - d3) + (d5 - d6)⟩]⟩
  else if (denominator == 0) = true then none
  else some ⟨t.a, [⟨ab, vb, denominator⟩, ⟨ac, vc, denominator⟩]⟩

theorem closestPoint_eq [Scalar α] (t : Triangle α) (p : Vec3 α) :
    t.closestPoint p = ((t.walk? p).map Walk.goal).getD
      (closer p (closer p (closestOnSegment p t.a t.b) (closestOnSegment p t.b t.c))
        (closestOnSegment p t.c t.a)) := by
  unfold closestPoint walk?
  dsimp only
  repeat' split
  all_goals rfl

variable [ExactScalar α] (t : Triangle α) (p : Vec3 α)

theorem lengthSq_pointAt_sub (v w : α) :
    (t.pointAt v w - p).lengthSq = (p - t.a).lengthSq +
      (v * v * (t.b - t.a).lengthSq + 2 * v * w * (t.b - t.a).dot (t.c - t.a) +
        w * w * (t.c - t.a).lengthSq -
        2 * (v * (t.b - t.a).dot (p - t.a) + w * (t.c - t.a).dot (p - t.a))) := by
  simp only [pointAt, Vec3.lengthSq, Vec3.dot_eq, Vec3.x_add, Vec3.y_add, Vec3.z_add, Vec3.x_sub,
    Vec3.y_sub, Vec3.z_sub, Vec3.x_mul, Vec3.y_mul, Vec3.z_mul]
  ring

theorem pointAt_third (w : α) : t.pointAt (1 - w) w = t.b + (t.c - t.b) * w := by
  ext <;> simp [pointAt] <;> ring

theorem pointAt_first (v : α) : t.pointAt v 0 = t.a + (t.b - t.a) * v := by
  ext <;> simp [pointAt]

theorem pointAt_second (w : α) : t.pointAt 0 w = t.a + (t.c - t.a) * w := by
  ext <;> simp [pointAt]

theorem pointAt_zero_zero : t.pointAt 0 0 = t.a := by
  ext <;> simp [pointAt]

theorem pointAt_one_zero : t.pointAt 1 0 = t.b := by
  ext <;> simp [pointAt]

theorem pointAt_zero_one : t.pointAt 0 1 = t.c := by
  ext <;> simp [pointAt]

theorem lengthSq_third : (t.c - t.b).lengthSq =
    (t.b - t.a).lengthSq - 2 * (t.b - t.a).dot (t.c - t.a) + (t.c - t.a).lengthSq := by
  simp only [Vec3.lengthSq, Vec3.dot_eq, Vec3.x_sub, Vec3.y_sub, Vec3.z_sub]
  ring

variable {t p} {x y l m k : α}

theorem walk?_eq (hx : (t.b - t.a).dot (p - t.a) = x) (hy : (t.c - t.a).dot (p - t.a) = y)
    (hl : (t.b - t.a).lengthSq = l) (hm : (t.c - t.a).lengthSq = m)
    (hk : (t.b - t.a).dot (t.c - t.a) = k) :
    t.walk? p =
      if x ≤ 0 ∧ y ≤ 0 then some ⟨t.a, []⟩
      else if 0 ≤ x - l ∧ y - k ≤ x - l then some ⟨t.b, []⟩
      else if l * y - k * x ≤ 0 ∧ 0 ≤ x ∧ x - l ≤ 0 then some ⟨t.a, [⟨t.b - t.a, x, l⟩]⟩
      else if 0 ≤ y - m ∧ x - k ≤ y - m then some ⟨t.c, []⟩
      else if m * x - k * y ≤ 0 ∧ 0 ≤ y ∧ y - m ≤ 0 then some ⟨t.a, [⟨t.c - t.a, y, m⟩]⟩
      else if l * m - k * k - (m * x - k * y) - (l * y - k * x) ≤ 0 ∧ 0 ≤ y - k - (x - l) ∧
          0 ≤ x - k - (y - m) then
        some ⟨t.b, [⟨t.c - t.b, y - k - (x - l), l - 2 * k + m⟩]⟩
      else if l * m - k * k = 0 then none
      else some ⟨t.a, [⟨t.b - t.a, m * x - k * y, l * m - k * k⟩,
        ⟨t.c - t.a, l * y - k * x, l * m - k * k⟩]⟩ := by
  have h3 := Vec3.dot_sub_sub t.a (t.b - t.a) p t.b
  have h4 := Vec3.dot_sub_sub t.a (t.c - t.a) p t.b
  have h5 := Vec3.dot_sub_sub t.a (t.b - t.a) p t.c
  have h6 := Vec3.dot_sub_sub t.a (t.c - t.a) p t.c
  rw [← Vec3.lengthSq] at h3 h6
  rw [Vec3.dot_comm (t.c - t.a) (t.b - t.a)] at h4
  unfold walk?
  simp only [h3, h4, h5, h6, hx, hy, hl, hm, hk, ExactScalar.beq_iff]
  have hvc : x * (y - k) - (x - l) * y = l * y - k * x := by ring
  have hvb : (x - k) * y - x * (y - m) = m * x - k * y := by ring
  have hva : (x - l) * (y - m) - (x - k) * (y - k) =
      l * m - k * k - (m * x - k * y) - (l * y - k * x) := by ring
  have hthird : y - k - (x - l) + (x - k - (y - m)) = l - 2 * k + m := by ring
  have hdet : l * m - k * k - (m * x - k * y) - (l * y - k * x) + (m * x - k * y) +
      (l * y - k * x) = l * m - k * k := by ring
  simp only [hvc, hvb, hva, hthird, hdet, sub_sub_cancel]

/-- Every way of the search leads to weights of least distance, without a division by zero. -/
theorem exists_leastWeights (p : Vec3 α) (hab : t.a ≠ t.b) (hbc : t.b ≠ t.c) (hca : t.c ≠ t.a) :
    ∃ walk v w, t.walk? p = some walk ∧ (∀ leg ∈ walk.legs, leg.divisor ≠ 0) ∧
      walk.goal = t.pointAt v w ∧
      LeastWeights ((t.b - t.a).dot (p - t.a)) ((t.c - t.a).dot (p - t.a)) (t.b - t.a).lengthSq
        (t.c - t.a).lengthSq ((t.b - t.a).dot (t.c - t.a)) v w := by
  have hl := Vec3.lengthSq_sub_pos hab
  have hm := Vec3.lengthSq_sub_pos hca.symm
  have hn := Vec3.lengthSq_sub_pos hbc
  have hk := Vec3.dot_mul_dot_le (t.b - t.a) (t.c - t.a)
  rw [lengthSq_third] at hn
  rw [walk?_eq rfl rfl rfl rfl rfl]
  generalize (t.b - t.a).dot (p - t.a) = x, (t.c - t.a).dot (p - t.a) = y,
    (t.b - t.a).lengthSq = l, (t.c - t.a).lengthSq = m, (t.b - t.a).dot (t.c - t.a) = k at *
  have hnone (start : Vec3 α) : ∀ leg ∈ (⟨start, []⟩ : Walk α).legs, leg.divisor ≠ 0 :=
    List.forall_mem_nil _
  split
  next h => exact ⟨_, 0, 0, rfl, hnone _, t.pointAt_zero_zero.symm, .corner_a h.1 h.2⟩
  next ha =>
  split
  next h => exact ⟨_, 1, 0, rfl, hnone _, t.pointAt_one_zero.symm, .corner_b h.1 h.2⟩
  next hb =>
  split
  next h =>
    exact ⟨_, x / l, 0, rfl, List.forall_mem_singleton.mpr hl.ne', (t.pointAt_first _).symm,
      .edge_ab hl h.2.1 h.2.2 h.1⟩
  next hedge =>
  split
  next h =>
    exact ⟨_, 0, 1, rfl, hnone _, t.pointAt_zero_one.symm, (LeastWeights.corner_b h.1 h.2).swap⟩
  next hc =>
  split
  next h =>
    exact ⟨_, 0, y / m, rfl, List.forall_mem_singleton.mpr hm.ne', (t.pointAt_second _).symm,
      (LeastWeights.edge_ab hm h.2.1 h.2.2 h.1).swap⟩
  next hedge' =>
  split
  next h =>
    exact ⟨_, _, _, rfl, List.forall_mem_singleton.mpr hn.ne', (t.pointAt_third _).symm,
      .edge_bc hn h.2.1 h.2.2 h.1⟩
  next hthird =>
  obtain ⟨hpos, hleast⟩ := Facing.leastWeights ⟨ha, hb, hc, hedge, hedge', hthird⟩ hl hm hk
  rw [if_neg hpos.ne']
  refine ⟨_, _, _, rfl, ?_, rfl, hleast⟩
  exact List.forall_mem_cons.mpr ⟨hpos.ne', List.forall_mem_singleton.mpr hpos.ne'⟩

/-- In a triangle with three distinct corners, in line or not, the search for the closest point
finds a point of the triangle, and no point of it is closer. It neither divides by zero nor falls
back on the edges. -/
theorem closestPoint_nearest (p : Vec3 α) (hab : t.a ≠ t.b) (hbc : t.b ≠ t.c) (hca : t.c ≠ t.a) :
    t.Contains (t.closestPoint p) ∧
      (∀ x, t.Contains x → (t.closestPoint p - p).lengthSq ≤ (x - p).lengthSq ∧
        t.distance p ≤ (x - p).length) ∧
      ∃ walk, t.walk? p = some walk ∧ walk.goal = t.closestPoint p ∧
        ∀ leg ∈ walk.legs, leg.divisor ≠ 0 := by
  obtain ⟨walk, v, w, hwalk, hdivisors, hgoal, hleast⟩ := exists_leastWeights p hab hbc hca
  have hclosest : t.closestPoint p = t.pointAt v w := by
    rw [closestPoint_eq, hwalk, ← hgoal]
    rfl
  have hnearest (x : Vec3 α) (hx : t.Contains x) :
      (t.closestPoint p - p).lengthSq ≤ (x - p).lengthSq := by
    obtain ⟨v', w', hv, hw, hsum, rfl⟩ := hx
    rw [hclosest, lengthSq_pointAt_sub, lengthSq_pointAt_sub]
    exact add_le_add_right (hleast.least hv hw hsum (Vec3.lengthSq_sub_pos hab)
      (Vec3.dot_mul_dot_le _ _)) _
  refine ⟨⟨v, w, hleast.first_nonneg, hleast.second_nonneg, hleast.sum_le, hclosest⟩,
    fun x hx => ⟨hnearest x hx, Vec3.length_le_length _ _ (hnearest x hx)⟩,
    walk, hwalk, ?_, hdivisors⟩
  rw [hgoal, hclosest]

/-- Three corners in line, and a point beside the second half of the longest edge. -/
theorem closestPoint_nearest_line :
    let t : Triangle ℝ := ⟨⟨0, 0, 0⟩, ⟨1, 0, 0⟩, ⟨3, 0, 0⟩⟩
    let p : Vec3 ℝ := ⟨2, 1, 0⟩
    t.Contains (t.closestPoint p) ∧ (t.closestPoint p - p).lengthSq ≤ 1 ∧
      ∃ walk, t.walk? p = some walk ∧ walk.goal = t.closestPoint p ∧
        ∀ leg ∈ walk.legs, leg.divisor ≠ 0 := by
  intro t p
  have hab : t.a ≠ t.b := fun h => zero_ne_one (congrArg Vec3.x h)
  have hbc : t.b ≠ t.c := fun h => absurd (congrArg Vec3.x h) (by norm_num [t])
  have hca : t.c ≠ t.a := fun h => absurd (congrArg Vec3.x h) (by norm_num [t])
  obtain ⟨hcontains, hnearest, hwalk⟩ := closestPoint_nearest p hab hbc hca
  have hbeside : t.Contains ⟨2, 0, 0⟩ := by
    refine ⟨0, 2 / 3, le_rfl, by norm_num, by norm_num, ?_⟩
    ext <;> norm_num [pointAt, t]
  refine ⟨hcontains, (hnearest _ hbeside).1.trans_eq ?_, hwalk⟩
  norm_num [Vec3.lengthSq, Vec3.dot_eq, p]

end Triangle

end Arbor
