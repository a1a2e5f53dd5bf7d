import Arbor.Proofs.RealVectors

namespace Arbor.Vec3

/-- The right-handed rotation about a unit axis: the part along the axis stays, and the part across
it turns towards its product with the axis. -/
noncomputable def rotated (v axis : Vec3 ℝ) (angle : ℝ) : Vec3 ℝ :=
  v * Real.cos angle + axis.cross v * Real.sin angle +
    axis * (axis.dot v * (1 - Real.cos angle))

variable {a : Vec3 ℝ}

theorem rotateUnit_eq (ha : a.dot a = 1) (v : Vec3 ℝ) (angle : ℝ) :
    v.rotateUnit a angle = v.rotated a angle := by
  let s := Real.sin (angle * 0.5)
  let c := Real.cos (angle * 0.5)
  have hangle : 2 * (angle * 0.5) = angle := by ring
  have hone : s ^ 2 + c ^ 2 = 1 := Real.sin_sq_add_cos_sq _
  have hsin : Real.sin angle = 2 * s * c := hangle ▸ Real.sin_two_mul _
  have hcos : Real.cos angle = c ^ 2 - s ^ 2 := hangle ▸ Real.cos_two_mul' _
  have hunit : v.rotateUnit a angle = v * (c * c - (a * s).dot (a * s)) +
      (a * s) * (v.dot (a * s) * 2) + (a * s).cross v * (c * 2) := by
    rw [rotateUnit, Scalar.ofNat_eq_cast]
    rfl
  let along := a.x * v.x + a.y * v.y + a.z * v.z
  rw [dot_eq] at ha
  rw [hunit, rotated, hsin, hcos]
  ext
  · simp [dot_eq]
    linear_combination (-(v.x * s ^ 2)) * ha + a.x * along * hone
  · simp [dot_eq]
    linear_combination (-(v.y * s ^ 2)) * ha + a.y * along * hone
  · simp [dot_eq]
    linear_combination (-(v.z * s ^ 2)) * ha + a.z * along * hone

theorem rotated_zero (v a : Vec3 ℝ) : v.rotated a 0 = v := by
  ext <;> simp [rotated]

theorem rotateAbout_eq (ha : a.dot a = 1) (v : Vec3 ℝ) (angle : ℝ) :
    v.rotateAbout a angle = v.rotated a angle := by
  by_cases hzero : angle = 0
  · rw [hzero, rotated_zero]
    exact if_pos (decide_eq_true rfl)
  · have hlength : a.length = 1 := length_eq_one.mpr ha
    have hne : a ≠ 0 := by
      rintro rfl
      simp [dot_eq] at ha
    have haxis : a.normalize? = some a := by
      rw [normalize?_eq hne, hlength]
      congr 1
      ext <;> simp
    rw [rotateAbout, haxis, ← rotateUnit_eq ha]
    exact if_neg fun h => hzero (of_decide_eq_true h)

theorem dot_rotated (ha : a.dot a = 1) (v w : Vec3 ℝ) (angle : ℝ) :
    (v.rotated a angle).dot (w.rotated a angle) = v.dot w := by
  have hone := Real.sin_sq_add_cos_sq angle
  let s := Real.sin angle
  let c := Real.cos angle
  let both := v.x * w.x + v.y * w.y + v.z * w.z
  let along := (a.x * v.x + a.y * v.y + a.z * v.z) * (a.x * w.x + a.y * w.y + a.z * w.z)
  simp only [rotated, dot_eq, x_add, y_add, z_add, x_mul, y_mul, z_mul, x_cross, y_cross,
    z_cross] at ha ⊢
  linear_combination (both - along) * hone + (s ^ 2 * both + (1 - c) ^ 2 * along) * ha

theorem rotated_self (ha : a.dot a = 1) (angle : ℝ) : a.rotated a angle = a := by
  ext <;> simp [rotated, ha] <;> ring

end Arbor.Vec3
