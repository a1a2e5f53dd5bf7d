import Arbor.Proofs.RealVectors
import Arbor.Assembly.Branches
import Arbor.Proofs.TurtleFrames

namespace Arbor

namespace Vec3

theorem perp_eq_norm (v : Vec3 ℝ) : v.perp = ‖(⟨v.x, v.y⟩ : ℂ)‖ := by
  rw [Complex.norm_def, Complex.normSq_mk]
  rfl

theorem azimuth_eq_arg (v : Vec3 ℝ) : v.azimuth = Complex.arg ⟨v.x, v.y⟩ := by
  unfold azimuth
  split
  next hzero =>
    obtain ⟨hx, hy⟩ := Bool.and_eq_true_iff.mp hzero
    rw [of_decide_eq_true hx, of_decide_eq_true hy]
    exact Complex.arg_zero.symm
  next => rfl

theorem rotated_vertical (v : Vec3 ℝ) (angle : ℝ) : v.rotated vertical angle =
    ⟨v.x * Real.cos angle - v.y * Real.sin angle, v.x * Real.sin angle + v.y * Real.cos angle,
      v.z⟩ := by
  ext <;> simp [rotated, vertical, dot_eq] <;> ring

theorem withAzimuth_add (v : Vec3 ℝ) (angle : ℝ) :
    v.withAzimuth (v.azimuth + angle) = v.rotated vertical angle := by
  have hx : v.perp * Real.cos v.azimuth = v.x := by
    rw [perp_eq_norm, azimuth_eq_arg, Complex.norm_mul_cos_arg]
  have hy : v.perp * Real.sin v.azimuth = v.y := by
    rw [perp_eq_norm, azimuth_eq_arg, Complex.norm_mul_sin_arg]
  rw [rotated_vertical]
  ext
  · change v.perp * Real.cos (v.azimuth + angle) = _
    rw [Real.cos_add, mul_sub, ← mul_assoc, ← mul_assoc, hx, hy]
  · change v.perp * Real.sin (v.azimuth + angle) = _
    rw [Real.sin_add, mul_add, ← mul_assoc, ← mul_assoc, hx, hy, add_comm]
  · rfl

theorem rotated_vertical_add (v : Vec3 ℝ) (angle angle' : ℝ) :
    v.rotated vertical (angle + angle') =
      (v.rotated vertical angle').rotated vertical angle := by
  simp only [rotated_vertical, Real.cos_add, Real.sin_add]
  ext <;> ring

end Vec3

namespace Pose

open Vec3

/-- The product of heading and left vector when the heading has turned back by an angle. -/
noncomputable def skew (p : Pose ℝ) (angle : ℝ) : ℝ :=
  (1 - Real.cos angle) * (p.orientation.z * p.left.z) -
    Real.sin angle * (p.orientation.cross p.left).z

variable {p : Pose ℝ}

theorem skew_zero (p : Pose ℝ) : p.skew 0 = 0 := by
  rw [skew, Real.cos_zero, Real.sin_zero]
  ring

theorem Framed.dot_rotated (h : p.Framed) (angle : ℝ) :
    (p.orientation.rotated vertical (-angle)).dot p.left = p.skew angle := by
  have hperpendicular := h.perpendicular
  rw [dot_eq] at hperpendicular
  rw [skew, rotated_vertical, dot_eq, Real.cos_neg, Real.sin_neg, z_cross]
  linear_combination Real.cos angle * hperpendicular

theorem orientation_atBase (p : Pose ℝ) (inclination side : ℝ) :
    (p.atBase inclination side).orientation =
      (p.orientation.rotated vertical (-inclination)).rotated vertical (side * quarterTurn) := by
  rw [← rotated_vertical_add, ← withAzimuth_add, ← sub_eq_add_neg, ← add_sub_assoc]
  rfl

theorem left_atBase (p : Pose ℝ) (inclination side : ℝ) :
    (p.atBase inclination side).left = p.left.rotated vertical (side * quarterTurn) :=
  withAzimuth_add _ _

theorem Framed.atBase (h : p.Framed) (inclination side : ℝ) :
    (p.atBase inclination side).orientation.length = 1 ∧
      (p.atBase inclination side).left.length = 1 ∧
      (p.atBase inclination side).orientation.dot (p.atBase inclination side).left =
        p.skew inclination := by
  rw [orientation_atBase, left_atBase, length_eq_one, length_eq_one,
    Vec3.dot_rotated dot_vertical, Vec3.dot_rotated dot_vertical, Vec3.dot_rotated dot_vertical,
    Vec3.dot_rotated dot_vertical]
  exact ⟨h.fst_dot, h.snd_dot, h.dot_rotated inclination⟩

theorem Framed.atBase_iff (h : p.Framed) (inclination side : ℝ) :
    (p.atBase inclination side).Framed ↔ p.skew inclination = 0 := by
  obtain ⟨hheading, hleft, hdot⟩ := h.atBase inclination side
  exact ⟨fun hframed => hdot.symm.trans hframed.perpendicular,
    fun hskew => ⟨hheading, hleft, hdot.trans hskew⟩⟩

theorem Framed.forall_skew_iff (h : p.Framed) :
    (∀ angle, p.skew angle = 0) ↔ p.orientation.z ^ 2 = 1 ∨ p.left.z ^ 2 = 1 := by
  have hheading := h.fst_dot
  have hleft := h.snd_dot
  have hdot := h.perpendicular
  rw [dot_eq] at hheading hleft hdot
  constructor
  · intro hskew
    have hhalf := hskew Real.pi
    have hquarter := hskew (Real.pi / 2)
    rw [skew, Real.cos_pi, Real.sin_pi] at hhalf
    rw [skew, Real.cos_pi_div_two, Real.sin_pi_div_two, z_cross] at hquarter
    have hlevel : p.orientation.z * p.left.z = 0 := by linarith
    have hacross : p.orientation.x * p.left.y - p.left.x * p.orientation.y = 0 := by linarith
    -- the horizontal parts are parallel and perpendicular, so one of them is zero
    have hparts : (1 - p.orientation.z ^ 2) * (1 - p.left.z ^ 2) = 0 := by
      have hx : 1 - p.orientation.z ^ 2 = p.orientation.x ^ 2 + p.orientation.y ^ 2 := by linarith
      have hy : 1 - p.left.z ^ 2 = p.left.x ^ 2 + p.left.y ^ 2 := by linarith
      have hflat : p.orientation.x * p.left.x + p.orientation.y * p.left.y = 0 := by linarith
      calc
        (1 - p.orientation.z ^ 2) * (1 - p.left.z ^ 2) =
            (p.orientation.x * p.left.x + p.orientation.y * p.left.y) ^ 2 +
              (p.orientation.x * p.left.y - p.left.x * p.orientation.y) ^ 2 := by
          rw [hx, hy]
          ring
        _ = 0 := by
          rw [hflat, hacross]
          ring
    rcases mul_eq_zero.mp hparts with hz | hz
    · exact .inl (by linarith)
    · exact .inr (by linarith)
  · intro hvertical angle
    have hzero {x y : ℝ} (hxy : x * x + y * y = 0) : x = 0 ∧ y = 0 :=
      ⟨by nlinarith [mul_self_nonneg x, mul_self_nonneg y],
        by nlinarith [mul_self_nonneg x, mul_self_nonneg y]⟩
    rw [skew, z_cross]
    rcases hvertical with hz | hz
    · obtain ⟨hx, hy⟩ := hzero (x := p.orientation.x) (y := p.orientation.y) (by linarith)
      rw [hx, hy] at hdot ⊢
      linear_combination (1 - Real.cos angle) * hdot
    · obtain ⟨hx, hy⟩ := hzero (x := p.left.x) (y := p.left.y) (by linarith)
      rw [hx, hy] at hdot ⊢
      linear_combination (1 - Real.cos angle) * hdot

end Pose

namespace Frustum

theorem inclination_of_cylinder {s : Frustum ℝ} (h : s.isCylinder = true) : s.inclination = 0 :=
  if_pos h

theorem inclination_of_cone {s : Frustum ℝ} (h : s.isCylinder = false) :
    s.inclination = Real.pi / 2 - Real.arctan (s.halfLength / (s.startRadius - s.endRadius)) := by
  have hcone : ¬ s.isCylinder = true := by simp [h]
  refine (if_neg hcone).trans ?_
  rw [quarterTurn, Scalar.ofNat_eq_cast]
  rfl

theorem inclination_mem {s : Frustum ℝ} (h : s.isCylinder = false) :
    0 < s.inclination ∧ s.inclination < Real.pi := by
  have hlow := Real.neg_pi_div_two_lt_arctan (s.halfLength / (s.startRadius - s.endRadius))
  have hhigh := Real.arctan_lt_pi_div_two (s.halfLength / (s.startRadius - s.endRadius))
  rw [inclination_of_cone h]
  constructor <;> linarith

end Frustum

namespace Pose

variable {p : Pose ℝ}

theorem Framed.basePair_iff (h : p.Framed) (inclination : ℝ) :
    (∀ q ∈ p.basePair inclination, q.Framed) ↔ p.skew inclination = 0 := by
  rw [basePair, List.forall_mem_cons, List.forall_mem_singleton, h.atBase_iff, h.atBase_iff,
    and_self]

/-- Leaves on ends of branches are framed. Those on a thin branch with children are framed if the
inclination of the branch does not count. -/
theorem Framed.leafPoses_iff {t : Turtle ℝ} (h : t.pose.Framed) (settings : Settings ℝ)
    (iterations : Int64) (branch : Frustum ℝ) :
    (∀ q ∈ settings.leafPoses iterations t branch, q.Framed) ↔ t.children = [] ∨
      settings.thinBranchHalfWidth ≤ branch.startRadius ∨ t.pose.skew branch.inclination = 0 := by
  unfold Settings.leafPoses
  split
  next hend =>
    refine iff_of_true (List.forall_mem_cons.mpr ⟨h, ?_⟩) (.inl (List.isEmpty_iff.mp hend))
    split
    · exact List.forall_mem_nil _
    · exact (h.basePair_iff 0).mpr t.pose.skew_zero
  next hinner =>
    rw [List.isEmpty_iff] at hinner
    split
    next hthin => rw [h.basePair_iff, or_iff_right hinner, or_iff_right (not_le.mpr hthin)]
    next hthick => exact iff_of_true (List.forall_mem_nil _) (.inr (.inl (not_lt.mp hthick)))

/-- At the base of a branch heading and left vector are unit vectors. They are perpendicular if the
branch does not narrow or widen, or if one of them was vertical; in general they miss it by the skew
of the inclination. -/
theorem frames_of_basePair (h : p.Framed) :
    (∀ inclination, ∀ q ∈ p.basePair inclination, q.orientation.length = 1 ∧ q.left.length = 1 ∧
      q.orientation.dot q.left = p.skew inclination) ∧
    (∀ inclination, Real.cos inclination = 1 → ∀ q ∈ p.basePair inclination, q.Framed) ∧
    ((∀ inclination, ∀ q ∈ p.basePair inclination, q.Framed) ↔
      p.orientation.z ^ 2 = 1 ∨ p.left.z ^ 2 = 1) ∧
    ∀ branch : Frustum ℝ, if branch.isCylinder then branch.inclination = 0
      else 0 < branch.inclination ∧ branch.inclination < Real.pi := by
  refine ⟨?_, ?_, ?_, ?_⟩
  · intro inclination q hq
    rcases List.mem_pair.mp hq with rfl | rfl
    · exact h.atBase inclination (-1)
    · exact h.atBase inclination 1
  · intro inclination hcos q hq
    have hsin : Real.sin inclination = 0 := Real.sin_eq_zero_iff_cos_eq.mpr (.inl hcos)
    have hskew : p.skew inclination = 0 := by rw [skew, hcos, hsin]; ring
    rcases List.mem_pair.mp hq with rfl | rfl
    · exact (h.atBase_iff inclination (-1)).mpr hskew
    · exact (h.atBase_iff inclination 1).mpr hskew
  · rw [← h.forall_skew_iff]
    exact forall_congr' h.basePair_iff
  · intro branch
    cases hcylinder : branch.isCylinder with
    | true => exact Frustum.inclination_of_cylinder hcylinder
    | false => exact Frustum.inclination_mem hcylinder

noncomputable def level : Pose ℝ := ⟨0, ⟨1, 0, 0⟩, ⟨0, 1, 0⟩, 1, 1⟩

theorem level_framed : level.Framed := by
  refine ⟨Vec3.length_eq_one.mpr ?_, Vec3.length_eq_one.mpr ?_, ?_⟩ <;>
    simp [level, Vec3.dot_eq]

theorem skew_level (angle : ℝ) : level.skew angle = -Real.sin angle := by
  simp [skew, level]

theorem frames_of_basePair_level : level.Framed ∧ Real.cos (2 * Real.pi) = 1 ∧
    (∀ q ∈ level.basePair (2 * Real.pi), q.Framed) ∧
    ¬ ∀ inclination, ∀ q ∈ level.basePair inclination, q.Framed := by
  obtain ⟨-, hfull, hvertical, -⟩ := frames_of_basePair level_framed
  refine ⟨level_framed, Real.cos_two_pi, hfull _ Real.cos_two_pi, fun hall => ?_⟩
  have hnone := hvertical.mp hall
  simp [level] at hnone

noncomputable def levelBranch : Frustum ℝ :=
  .along level.position level.orientation level.length (level.width / Scalar.ofNat 2)
    (level.width / Scalar.ofNat 4)

theorem level_base_skewed : level.Framed ∧
    ∀ q ∈ level.basePair levelBranch.inclination, ¬ q.Framed := by
  have hcone : levelBranch.isCylinder = false :=
    decide_eq_false (by norm_num [levelBranch, level, Frustum.along, Scalar.ofNat_eq_cast])
  obtain ⟨hpos, hlt⟩ := Frustum.inclination_mem hcone
  have hskew : level.skew levelBranch.inclination ≠ 0 := by
    rw [skew_level, neg_ne_zero]
    exact (Real.sin_pos_of_pos_of_lt_pi hpos hlt).ne'
  refine ⟨level_framed, fun q hq hframed => ?_⟩
  rcases List.mem_pair.mp hq with rfl | rfl
  · exact hskew ((level_framed.atBase_iff _ (-1)).mp hframed)
  · exact hskew ((level_framed.atBase_iff _ 1).mp hframed)

end Pose

end Arbor
