import Arbor.Proofs.DrawnPoints
import Arbor.Proofs.TurtleFrames

namespace Arbor

namespace Vec3

variable {u v w : Vec3 ℝ}

theorem dot_orthogonal (w : Vec3 ℝ) : w.orthogonal.dot w = 0 := by
  unfold orthogonal
  dsimp only
  split_ifs <;> rw [dot_eq] <;> ring

/-- One of the two components that are taken has the largest magnitude. -/
theorem orthogonal_ne_zero (h : w ≠ 0) : w.orthogonal ≠ 0 := by
  have hlarger {a b : ℝ} (hab : |a| < |b|) : b ≠ 0 := abs_pos.mp ((abs_nonneg a).trans_lt hab)
  unfold orthogonal
  change (if |w.x| < |w.y| then _ else _) ≠ _
  intro hzero
  split_ifs at hzero with hxy hxz hyz
  · exact hlarger hxz (congrArg y hzero)
  · exact hlarger hxy (congrArg x hzero)
  · exact hlarger hyz (neg_eq_zero.mp (congrArg x hzero))
  · have hy : w.y = 0 := congrArg x hzero
    have hx : w.x = 0 := neg_eq_zero.mp (congrArg y hzero)
    have hz : ¬ |w.y| < |w.z| := hyz
    rw [hy, abs_zero, abs_pos, not_not] at hz
    exact h (Vec3.ext hx hy hz)

theorem dot_cross_self (hu : u.dot u = 1) (hw : w.dot w = 1) (huw : u.dot w = 0) :
    (w.cross u).dot (w.cross u) = 1 := by
  simp only [dot_eq, x_cross, y_cross, z_cross] at *
  linear_combination hu * (w.x * w.x + w.y * w.y + w.z * w.z) + hw -
    (u.x * w.x + u.y * w.y + u.z * w.z) * huw

theorem frameFor_orthonormal (h : w.dot w = 1) : Orthonormal w.frameFor.1 w.frameFor.2 ∧
    w.frameFor.1.dot w = 0 ∧ w.frameFor.2.dot w = 0 := by
  have hne : w.orthogonal ≠ 0 := orthogonal_ne_zero (ne_zero_of_unit h)
  have hframe : w.frameFor = (w.orthogonal.normalizeOrZero,
      w.cross w.orthogonal.normalizeOrZero) := by
    rw [frameFor, normalizeOrZero_unit h]
  have hfst := dot_normalizeOrZero hne
  have hacross : w.orthogonal.normalizeOrZero.dot w = 0 := by
    have hdot := dot_orthogonal w
    rw [normalizeOrZero, normalize?_eq hne, Option.getD_some]
    rw [dot_eq] at hdot ⊢
    simp only [x_mul, y_mul, z_mul]
    linear_combination (1 / w.orthogonal.length) * hdot
  rw [hframe]
  generalize w.orthogonal.normalizeOrZero = u at *
  refine ⟨⟨length_eq_one.mpr hfst, length_eq_one.mpr (dot_cross_self hfst h hacross), ?_⟩,
    hacross, ?_⟩ <;>
  · simp only [dot_eq, x_cross, y_cross, z_cross]
    ring

theorem dot_circle (h : Orthonormal u v) (angle : ℝ) :
    (u * Real.cos angle + v * Real.sin angle).dot
      (u * Real.cos angle + v * Real.sin angle) = 1 := by
  have hu := h.fst_dot
  have hv := h.snd_dot
  have huv := h.perpendicular
  have hcircle := Real.sin_sq_add_cos_sq angle
  simp only [dot_eq, x_add, y_add, z_add, x_mul, y_mul, z_mul] at *
  linear_combination Real.cos angle ^ 2 * hu + Real.sin angle ^ 2 * hv +
    2 * Real.cos angle * Real.sin angle * huv + hcircle

end Vec3

namespace Frustum

variable {s : Frustum ℝ} {z r : ℝ}

noncomputable def across (s : Frustum ℝ) (angle : ℝ) : Vec3 ℝ :=
  s.axis.frameFor.1 * Real.cos angle + s.axis.frameFor.2 * Real.sin angle

noncomputable def pointAt (s : Frustum ℝ) (z r angle : ℝ) : Vec3 ℝ :=
  s.center + s.axis * z + s.across angle * r

structure Proper (s : Frustum ℝ) : Prop where
  axis_unit : s.axis.dot s.axis = 1
  length_nonneg : 0 ≤ s.halfLength
  start_nonneg : 0 ≤ s.startRadius
  end_nonneg : 0 ≤ s.endRadius

theorem across_dot (h : s.axis.dot s.axis = 1) (angle : ℝ) :
    (s.across angle).dot (s.across angle) = 1 ∧ (s.across angle).dot s.axis = 0 := by
  obtain ⟨horthonormal, hu, hv⟩ := Vec3.frameFor_orthonormal h
  refine ⟨Vec3.dot_circle horthonormal angle, ?_⟩
  simp only [across, Vec3.dot_eq, Vec3.x_add, Vec3.y_add, Vec3.z_add, Vec3.x_mul, Vec3.y_mul,
    Vec3.z_mul] at *
  linear_combination Real.cos angle * hu + Real.sin angle * hv

theorem axial_pointAt (h : s.axis.dot s.axis = 1) (z r angle : ℝ) :
    s.axial (s.pointAt z r angle) = z := by
  obtain ⟨-, hacross⟩ := across_dot h angle
  simp only [axial, pointAt, Vec3.dot_eq, Vec3.x_sub, Vec3.y_sub, Vec3.z_sub, Vec3.x_add,
    Vec3.y_add, Vec3.z_add, Vec3.x_mul, Vec3.y_mul, Vec3.z_mul] at *
  linear_combination z * h + r * hacross

theorem radial_pointAt (h : s.axis.dot s.axis = 1) (hr : 0 ≤ r) (z angle : ℝ) :
    s.radial (s.pointAt z r angle) = r := by
  have hbeside : (s.pointAt z r angle - s.center) - s.axis * z = s.across angle * r := by
    ext <;> simp [pointAt] <;> ring
  rw [radial, axial_pointAt h, hbeside, Vec3.length_mul _ hr,
    Vec3.length_eq_one.mpr (across_dot h angle).1, one_mul]

theorem clearances_pointAt (h : s.axis.dot s.axis = 1) (hr : 0 ≤ r) (z angle : ℝ) :
    ∃ cosine, (0 ≤ s.halfLength → 0 ≤ cosine) ∧
      s.clearances (s.pointAt z r angle) = [s.halfLength - |z|, (s.radiusAt z - r) * cosine] := by
  refine ⟨if 0 < s.slant then Scalar.ofNat 2 * s.halfLength / s.slant else 1, fun hlength => ?_, ?_⟩
  · rw [Scalar.ofNat_eq_cast, Nat.cast_ofNat]
    have hslant := s.slant_nonneg
    split
    · positivity
    · exact zero_le_one
  · change [s.halfLength - |s.axial (s.pointAt z r angle)|, s.side (s.pointAt z r angle)] = _
    rw [side, axial_pointAt h, radial_pointAt h hr]

theorem le_radiusAt (s : Frustum ℝ) :
    s.startRadius ≤ s.radiusAt (-s.halfLength) ∧ s.endRadius ≤ s.radiusAt s.halfLength := by
  rw [radiusAt, radiusAt, Scalar.greater_eq_max]
  split
  next => exact ⟨le_max_left _ _, le_max_right _ _⟩
  next hlong =>
    have hne : s.halfLength ≠ 0 := (not_le.mp hlong).ne'
    rw [Scalar.ofNat_eq_cast, Nat.cast_ofNat]
    constructor <;> apply le_of_eq <;> field_simp <;> ring

/-- A square drawn between those of two radii is that of a radius between them. -/
theorem sqrt_mix_mem {r q t : ℝ} (hr : 0 ≤ r) (hle : r ≤ q) (hlow : 0 ≤ t) (hhigh : t ≤ 1) :
    r ≤ √(r * r + t * (q * q - r * r)) ∧ √(r * r + t * (q * q - r * r)) ≤ q := by
  have hsq : 0 ≤ q * q - r * r := sub_nonneg.mpr (mul_self_le_mul_self hr hle)
  have hmix : t * (q * q - r * r) ≤ q * q - r * r := mul_le_of_le_one_left hsq hhigh
  have hpos := mul_nonneg hlow hsq
  constructor
  · apply Real.le_sqrt_of_sq_le
    linarith [sq r]
  · refine Real.sqrt_le_iff.mpr ⟨hr.trans hle, ?_⟩
    linarith [sq q]

namespace Proper

theorem radiusAt_mem (h : s.Proper) (hz : |z| ≤ s.halfLength) :
    0 ≤ s.radiusAt z ∧ s.radiusAt z ≤ max s.startRadius s.endRadius := by
  have hstart := h.start_nonneg
  have hend := h.end_nonneg
  rw [radiusAt, Scalar.greater_eq_max]
  split
  next => exact ⟨le_max_of_le_left hstart, le_rfl⟩
  next hlong =>
    rw [not_le] at hlong
    rw [abs_le] at hz
    rw [Scalar.ofNat_eq_cast, Nat.cast_ofNat]
    have hlow : 0 ≤ (z + s.halfLength) / (2 * s.halfLength) := by
      apply div_nonneg <;> linarith
    have hhigh : (z + s.halfLength) / (2 * s.halfLength) ≤ 1 := by
      rw [div_le_one] <;> linarith
    generalize (z + s.halfLength) / (2 * s.halfLength) = t at hlow hhigh ⊢
    have hmix : s.startRadius + (s.endRadius - s.startRadius) * t =
        (1 - t) * s.startRadius + t * s.endRadius := by ring
    rw [hmix]
    refine ⟨add_nonneg (mul_nonneg (by linarith) hstart) (mul_nonneg hlow hend), ?_⟩
    have hle₁ := mul_le_mul_of_nonneg_left (le_max_left s.startRadius s.endRadius)
      (sub_nonneg.mpr hhigh)
    have hle₂ := mul_le_mul_of_nonneg_left (le_max_right s.startRadius s.endRadius) hlow
    linarith

theorem axialShare_mem (h : s.Proper) {share : ℝ} (hlow : 0 ≤ share) (hhigh : share ≤ 1) :
    0 ≤ s.axialShare share ∧ s.axialShare share ≤ 1 := by
  have hstart := h.start_nonneg
  have hend := h.end_nonneg
  have hepsilon : (0 : ℝ) < radiusEpsilon := by norm_num [radiusEpsilon]
  unfold axialShare
  dsimp only
  split
  next => exact ⟨hlow, hhigh⟩
  next hdiffer =>
    have hne : s.startRadius ≠ s.endRadius := by
      intro heq
      apply hdiffer
      rw [heq, sub_self]
      exact (abs_zero (α := ℝ)).trans_lt hepsilon
    generalize s.startRadius = r, s.endRadius = q at hstart hend hne ⊢
    change 0 ≤ (√(r * r + share * (q * q - r * r)) - r) / (q - r) ∧
      (√(r * r + share * (q * q - r * r)) - r) / (q - r) ≤ 1
    rcases lt_or_gt_of_ne hne with hlt | hgt
    · obtain ⟨hfrom, hto⟩ := sqrt_mix_mem hstart hlt.le hlow hhigh
      have hpos : 0 < q - r := sub_pos.mpr hlt
      exact ⟨div_nonneg (sub_nonneg.mpr hfrom) hpos.le, (div_le_one hpos).mpr (by linarith)⟩
    · -- the same draw, from the other end
      have hflip : r * r + share * (q * q - r * r) = q * q + (1 - share) * (r * r - q * q) := by
        ring
      obtain ⟨hfrom, hto⟩ := sqrt_mix_mem hend hgt.le (sub_nonneg.mpr hhigh) (sub_le_self 1 hlow)
      have hneg : q - r < 0 := sub_neg.mpr hgt
      rw [hflip]
      exact ⟨div_nonneg_of_nonpos (sub_nonpos.mpr hto) hneg.le,
        (div_le_one_of_neg hneg).mpr (by linarith)⟩

theorem contains_pointAt (h : s.Proper) (hz : |z| ≤ s.halfLength) (hr : 0 ≤ r)
    (hmax : r ≤ max s.startRadius s.endRadius) (angle : ℝ) :
    s.bounds.contains (s.pointAt z r angle) 0 = true := by
  have hunit : (s.across angle).length = 1 :=
    Vec3.length_eq_one.mpr (across_dot h.axis_unit angle).1
  obtain ⟨hx, hy, hz'⟩ := (s.across angle).abs_le_length
  rw [hunit] at hx hy hz'
  -- along each axis the disks at the ends reach as far as any point between them
  have hbetween (c w e : ℝ) (he : |e| ≤ 1) :
      min (c - w * s.halfLength) (c + w * s.halfLength) - max s.startRadius s.endRadius ≤
          c + w * z + e * r ∧
        c + w * z + e * r ≤
          max (c - w * s.halfLength) (c + w * s.halfLength) + max s.startRadius s.endRadius := by
    have hwz : |w * z| ≤ |w * s.halfLength| := by
      rw [abs_mul, abs_mul, abs_of_nonneg h.length_nonneg]
      exact mul_le_mul_of_nonneg_left hz (abs_nonneg w)
    have her : |e * r| ≤ max s.startRadius s.endRadius := by
      rw [abs_mul, abs_of_nonneg hr]
      exact (mul_le_of_le_one_left hr he).trans hmax
    rw [abs_le] at her hwz
    rcases abs_cases (w * s.halfLength) with ⟨habs, -⟩ | ⟨habs, -⟩ <;> rw [habs] at hwz
    · have hlow := min_le_left (c - w * s.halfLength) (c + w * s.halfLength)
      have hhigh := le_max_right (c - w * s.halfLength) (c + w * s.halfLength)
      constructor <;> linarith
    · have hlow := min_le_right (c - w * s.halfLength) (c + w * s.halfLength)
      have hhigh := le_max_left (c - w * s.halfLength) (c + w * s.halfLength)
      constructor <;> linarith
  rw [Box.contains_iff]
  simp only [bounds, Box.expand, Box.ofPoint, base, top, Vec3.map₂, Vec3.splat, pointAt,
    Scalar.lesser_eq_min, Scalar.greater_eq_max, Vec3.x_add, Vec3.y_add, Vec3.z_add, Vec3.x_sub,
    Vec3.y_sub, Vec3.z_sub, Vec3.x_mul, Vec3.y_mul, Vec3.z_mul]
  exact ⟨hbetween _ _ _ hx, hbetween _ _ _ hy, hbetween _ _ _ hz'⟩

theorem onSurface_pointAt (h : s.Proper) (hz : |z| ≤ s.halfLength) (hr : 0 ≤ r)
    (hside : r ≤ s.radiusAt z) (hon : |z| = s.halfLength ∨ r = s.radiusAt z) (angle : ℝ) :
    (s.pointAt z r angle).OnSurface s.clearances s.bounds := by
  obtain ⟨cosine, hcosine, hclearances⟩ := clearances_pointAt h.axis_unit hr z angle
  refine ⟨?_, h.contains_pointAt hz hr (hside.trans (h.radiusAt_mem hz).2) angle⟩
  rw [hclearances]
  refine Clearances.least_eq_zero ?_ ?_
  · rcases hon with hdisk | hside
    · simp [hdisk]
    · simp [hside]
  · have hnonneg := mul_nonneg (sub_nonneg.mpr hside) (hcosine h.length_nonneg)
    simpa [hz] using hnonneg

theorem sure_onSurface (h : s.Proper) :
    s.pointOnSurface.Sure fun p => p.OnSurface s.clearances s.bounds := by
  have hlength := h.length_nonneg
  obtain ⟨hstart, hend⟩ := s.le_radiusAt
  -- a disk at an end, by its height
  have hdisk (z radius : ℝ) (hz : |z| = s.halfLength) (hradius : 0 ≤ radius)
      (hle : radius ≤ s.radiusAt z) (c : Vec3 ℝ) (hc : c = s.center + s.axis * z) :
      (Draw.onDisk c s.axis.frameFor.1 s.axis.frameFor.2 radius).Sure fun p =>
        p.OnSurface s.clearances s.bounds := by
    refine (Draw.Sure.onDisk c _ _ hradius).mono fun p ⟨r, angle, hr, hrle, hp⟩ => ?_
    have hat : p = s.pointAt z r angle := by
      rw [hp, hc, pointAt, across]
      ext <;> simp <;> ring
    rw [hat]
    exact h.onSurface_pointAt hz.le hr (hrle.trans hle) (.inl hz) angle
  refine (Draw.Sure.any _).bind fun index _ => ?_
  split
  · have hz : |-s.halfLength| = s.halfLength := by rw [abs_neg, abs_of_nonneg hlength]
    refine hdisk (-s.halfLength) _ hz h.start_nonneg hstart _ ?_
    ext <;> simp [base, sub_eq_add_neg]
  · exact hdisk s.halfLength _ (abs_of_nonneg hlength) h.end_nonneg hend _ rfl
  · refine Draw.Sure.uniform.bind fun share hshare => Draw.Sure.uniform.bind fun turn _ => .pure ?_
    obtain ⟨hlow, hhigh⟩ := h.axialShare_mem hshare.1 hshare.2.le
    have hz := abs_height_le hlength hlow hhigh
    exact h.onSurface_pointAt hz (h.radiusAt_mem hz).1 le_rfl (.inr rfl) _

end Proper

theorem proper_along (start : Vec3 ℝ) {direction : Vec3 ℝ} {length r q : ℝ}
    (hdirection : direction ≠ 0) (hlength : 0 ≤ length) (hr : 0 ≤ r) (hq : 0 ≤ q) :
    (along start direction length r q).Proper := by
  refine ⟨Vec3.dot_normalizeOrZero hdirection, ?_, hr, hq⟩
  rw [along, Scalar.ofNat_eq_cast]
  positivity

end Frustum

end Arbor
