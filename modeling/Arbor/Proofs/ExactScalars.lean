import Mathlib.Algebra.Order.Field.Basic
import Mathlib.Algebra.Order.Field.Rat
import Mathlib.Tactic.FieldSimp
import Mathlib.Tactic.Linarith
import Mathlib.Tactic.Ring
import Arbor.Geometry.Triangle
import Arbor.Scalar.Real

namespace Arbor

/-- Scalars of a linearly ordered field. Roots only have to keep the order, and of angles nothing is
asked. -/
class ExactScalar (α : Type) extends Scalar α, Field α, LinearOrder α, IsStrictOrderedRing α where
  beq_iff (x y : α) : toScalar.toBEq.beq x y = true ↔ x = y
  abs_eq (x : α) : Scalar.abs x = |x|
  ofScientific_eq (m : Nat) (sign : Bool) (e : Nat) :
    toScalar.toOfScientific.ofScientific m sign e = ((OfScientific.ofScientific m sign e : ℚ) : α)
  sqrt_mono (x y : α) : x ≤ y → Scalar.sqrt x ≤ Scalar.sqrt y

noncomputable instance : ExactScalar ℝ where
  __ := (inferInstance : Scalar ℝ)
  __ := (inferInstance : Field ℝ)
  __ := (inferInstance : LinearOrder ℝ)
  __ := (inferInstance : IsStrictOrderedRing ℝ)
  beq_iff _ _ := decide_eq_true_iff
  abs_eq _ := rfl
  ofScientific_eq m sign e := by
    change ((OfScientific.ofScientific m sign e : ℝ)) = _
    norm_cast
  sqrt_mono _ _ := Real.sqrt_le_sqrt

namespace Vec3

variable {α : Type} [ExactScalar α] (v w : Vec3 α)

theorem lengthSq_nonneg : 0 ≤ v.lengthSq := by
  rw [lengthSq, dot_eq]
  exact add_nonneg (add_nonneg (mul_self_nonneg _) (mul_self_nonneg _)) (mul_self_nonneg _)

theorem dot_comm : v.dot w = w.dot v := by
  rw [dot_eq, dot_eq]
  ring

theorem dot_sub_sub (u p q : Vec3 α) : u.dot (p - q) = u.dot (p - v) - u.dot (q - v) := by
  simp only [dot_eq, x_sub, y_sub, z_sub]
  ring

variable {v w} in
theorem eq_of_lengthSq_sub (h : (w - v).lengthSq ≤ 0) : v = w := by
  rw [lengthSq, dot_eq, x_sub, y_sub, z_sub] at h
  have hx := mul_self_nonneg (w.x - v.x)
  have hy := mul_self_nonneg (w.y - v.y)
  have hz := mul_self_nonneg (w.z - v.z)
  have heq {a b : α} (hab : (b - a) * (b - a) ≤ 0) : a = b :=
    (sub_eq_zero.mp (mul_self_eq_zero.mp (hab.antisymm (mul_self_nonneg _)))).symm
  exact Vec3.ext (heq (by linarith)) (heq (by linarith)) (heq (by linarith))

variable {v w} in
theorem lengthSq_sub_pos (h : v ≠ w) : 0 < (w - v).lengthSq :=
  not_le.mp fun hle => h (eq_of_lengthSq_sub hle)

theorem dot_mul_dot_le : v.dot w * v.dot w ≤ v.lengthSq * w.lengthSq := by
  have hcross : v.lengthSq * w.lengthSq - v.dot w * v.dot w = (v.cross w).lengthSq := by
    simp only [lengthSq, dot_eq, x_cross, y_cross, z_cross]
    ring
  exact sub_nonneg.mp (hcross ▸ lengthSq_nonneg _)

theorem length_le_length (h : v.lengthSq ≤ w.lengthSq) : v.length ≤ w.length :=
  ExactScalar.sqrt_mono _ _ h

end Vec3

namespace Triangle

variable {α : Type}

def pointAt [Scalar α] (t : Triangle α) (v w : α) : Vec3 α :=
  t.a + (t.b - t.a) * v + (t.c - t.a) * w

def Contains [Scalar α] (t : Triangle α) (x : Vec3 α) : Prop :=
  ∃ v w : α, 0 ≤ v ∧ 0 ≤ w ∧ v + w ≤ 1 ∧ x = t.pointAt v w

end Triangle

end Arbor
