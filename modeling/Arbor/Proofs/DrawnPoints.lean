import Arbor.Proofs.DrawnValues
import Arbor.Proofs.EnclosingBoxes
import Arbor.Proofs.SafeDistances

namespace Arbor

namespace Draw

variable {β γ : Type}

/-- The outcome has a property, whatever the generator. -/
def Sure (d : Draw β) (P : β → Prop) : Prop := ∀ g, P (d.run g).1

namespace Sure

variable {P : β → Prop} {Q : γ → Prop}

theorem pure {b : β} (h : P b) : Sure (Pure.pure b) P := fun _ => h

theorem any (d : Draw β) : Sure d fun _ => True := fun _ => trivial

theorem bind {d : Draw β} {next : β → Draw γ} (h : Sure d P)
    (hnext : ∀ b, P b → Sure (next b) Q) : Sure (d >>= next) Q :=
  fun g => hnext _ (h g) (d.run g).2

theorem mono {d : Draw β} {P' : β → Prop} (h : Sure d P) (himp : ∀ b, P b → P' b) : Sure d P' :=
  fun g => himp _ (h g)

theorem uniform : Sure (Draw.uniform : Draw ℝ) fun u => 0 ≤ u ∧ u < 1 := Generator.uniform_mem

theorem onDisk (center u v : Vec3 ℝ) {radius : ℝ} (h : 0 ≤ radius) :
    Sure (Draw.onDisk center u v radius) fun p => ∃ r angle : ℝ, 0 ≤ r ∧ r ≤ radius ∧
      p = center + u * (r * Real.cos angle) + v * (r * Real.sin angle) := by
  refine uniform.bind fun share hshare => uniform.bind fun turn _ => .pure ?_
  refine ⟨radius * √share, Scalar.tau * turn, mul_nonneg h (Real.sqrt_nonneg share), ?_, rfl⟩
  exact mul_le_of_le_one_right h (Real.sqrt_le_one.mpr hshare.2.le)

end Sure

end Draw

namespace Clearances

variable {cs : Clearances ℝ}

theorem least_eq_zero (hzero : (0 : ℝ) ∈ cs) (hcs : ∀ c ∈ cs, 0 ≤ c) : Scalar.least cs = 0 :=
  (Scalar.isLeast_least (List.ne_nil_of_mem hzero)).unique ⟨hzero, hcs⟩

theorem location_of_least (h : Scalar.least cs = 0) : cs.location = .surface := by
  have hpos := surfaceTolerance_pos
  rw [location, h, if_neg hpos.not_gt, if_neg (neg_neg_of_pos hpos).not_gt]

end Clearances

/-- On the surface that clearances describe, and within the bounds. -/
def Vec3.OnSurface (p : Vec3 ℝ) (cs : Vec3 ℝ → Clearances ℝ) (bounds : Box ℝ) : Prop :=
  Scalar.least (cs p) = 0 ∧ bounds.contains p 0 = true

theorem Box.contains_ofCenter {center half p : Vec3 ℝ} (hx : |p.x - center.x| ≤ half.x)
    (hy : |p.y - center.y| ≤ half.y) (hz : |p.z - center.z| ≤ half.z) :
    (Box.ofCenter center half).contains p 0 = true := by
  have hside {x c h : ℝ} (hle : |x - c| ≤ h) : c - h ≤ x ∧ x ≤ c + h := by
    rw [abs_le] at hle
    constructor <;> linarith
  exact contains_iff.mpr ⟨hside hx, hside hy, hside hz⟩

namespace Vec3

theorem abs_le_length (v : Vec3 ℝ) :
    |v.x| ≤ v.length ∧ |v.y| ≤ v.length ∧ |v.z| ≤ v.length := by
  refine ⟨?_, ?_, ?_⟩ <;>
  · refine abs_le_length_of_sq_le ?_
    rw [lengthSq_eq]
    linarith [sq_nonneg v.x, sq_nonneg v.y, sq_nonneg v.z]

theorem add_sub_left (v w : Vec3 ℝ) : v + w - v = w := by
  ext <;> simp

theorem length_spherePoint {z : ℝ} (hlow : -1 ≤ z) (hhigh : z ≤ 1) (angle : ℝ) :
    (spherePoint z angle).length = 1 := by
  have hroot : 0 ≤ 1 - z * z := by nlinarith
  have hcircle := Real.sin_sq_add_cos_sq angle
  have hsq : √(max (1 - z * z) 0) ^ 2 = 1 - z * z := by
    rw [max_eq_left hroot, Real.sq_sqrt hroot]
  rw [length_eq_one, spherePoint, Scalar.greater_eq_max, dot_eq]
  change √(max (1 - z * z) 0) * Real.cos angle * (√(max (1 - z * z) 0) * Real.cos angle) +
    √(max (1 - z * z) 0) * Real.sin angle * (√(max (1 - z * z) 0) * Real.sin angle) + z * z = 1
  linear_combination √(max (1 - z * z) 0) ^ 2 * hcircle + hsq

noncomputable def ofPolar (r angle z : ℝ) : Vec3 ℝ := ⟨r * Real.cos angle, r * Real.sin angle, z⟩

theorem perp_ofPolar {r : ℝ} (h : 0 ≤ r) (angle z : ℝ) : (ofPolar r angle z).perp = r := by
  have hcircle := Real.sin_sq_add_cos_sq angle
  have hsq : r * Real.cos angle * (r * Real.cos angle) +
      r * Real.sin angle * (r * Real.sin angle) = r ^ 2 := by
    linear_combination r ^ 2 * hcircle
  exact (congrArg Real.sqrt hsq).trans (Real.sqrt_sq h)

theorem length_ofPolar {r : ℝ} (h : 0 ≤ r) (angle : ℝ) : (ofPolar r angle 0).length = r := by
  have hflat : (ofPolar r angle 0).length = (ofPolar r angle 0).perp := by
    rw [length, lengthSq, dot_eq, perp, ofPolar, mul_zero, add_zero]
  rw [hflat, perp_ofPolar h]

theorem abs_ofPolar_le {r : ℝ} (h : 0 ≤ r) (angle z : ℝ) :
    |(ofPolar r angle z).x| ≤ r ∧ |(ofPolar r angle z).y| ≤ r := by
  constructor
  · exact (abs_mul r _).trans_le
      ((abs_of_nonneg h).symm ▸ mul_le_of_le_one_right h (Real.abs_cos_le_one angle))
  · exact (abs_mul r _).trans_le
      ((abs_of_nonneg h).symm ▸ mul_le_of_le_one_right h (Real.abs_sin_le_one angle))

theorem disk_eq (center : Vec3 ℝ) (r angle : ℝ) :
    center + (unitX : Vec3 ℝ) * (r * Real.cos angle) + (unitY : Vec3 ℝ) * (r * Real.sin angle) =
      center + ofPolar r angle 0 := by
  ext <;> simp [unitX, unitY, ofPolar]

end Vec3

theorem abs_height_le {half share : ℝ} (hhalf : 0 ≤ half) (hlow : 0 ≤ share) (hhigh : share ≤ 1) :
    |(Scalar.ofNat 2 * share - 1) * half| ≤ half := by
  rw [Scalar.ofNat_eq_cast, Nat.cast_ofNat, abs_mul, abs_of_nonneg hhalf]
  refine mul_le_of_le_one_left hhalf (abs_le.mpr ⟨?_, ?_⟩) <;> linarith

theorem Orb.sure_onSurface {s : Orb ℝ} (h : 0 ≤ s.radius) :
    s.pointOnSurface.Sure fun p => p.OnSurface s.clearances s.bounds := by
  refine Draw.Sure.uniform.bind fun z hz => Draw.Sure.uniform.bind fun turn _ => .pure ?_
  rw [Scalar.ofNat_eq_cast, Nat.cast_ofNat]
  set d := spherePoint (2 * z - 1) (Scalar.tau * turn) * s.radius with hd
  have hlength : d.length = s.radius := by
    rw [hd, Vec3.length_mul _ h, Vec3.length_spherePoint (by linarith) (by linarith), one_mul]
  obtain ⟨hx, hy, hz⟩ := d.abs_le_length
  constructor
  · refine Clearances.least_eq_zero ?_ ?_ <;>
      simp [Orb.clearances, Vec3.add_sub_left, hlength]
  · refine Box.contains_ofCenter ?_ ?_ ?_ <;>
      simpa [Vec3.splat, ← hlength]

namespace Tube

variable {s : Tube ℝ}

theorem onSurface_add {r angle z : ℝ} (hr : 0 ≤ r) (hside : r ≤ s.radius)
    (hcap : |z| ≤ s.halfHeight) (hon : r = s.radius ∨ |z| = s.halfHeight) :
    (s.center + Vec3.ofPolar r angle z).OnSurface s.clearances s.bounds := by
  have hclearances : s.clearances (s.center + Vec3.ofPolar r angle z) =
      [s.halfHeight - |z|, s.radius - r] := by
    rw [clearances, Vec3.add_sub_left, Vec3.perp_ofPolar hr]
    rfl
  obtain ⟨hx, hy⟩ := Vec3.abs_ofPolar_le hr angle z
  constructor
  · rw [hclearances]
    refine Clearances.least_eq_zero ?_ ?_
    · rcases hon with rfl | hz
      · simp
      · simp [hz]
    · simp [hside, hcap]
  · refine Box.contains_ofCenter ?_ ?_ ?_
    · simpa using hx.trans hside
    · simpa using hy.trans hside
    · simpa [Vec3.ofPolar] using hcap

theorem sure_onSurface (hr : 0 ≤ s.radius) (hh : 0 ≤ s.halfHeight) :
    s.pointOnSurface.Sure fun p => p.OnSurface s.clearances s.bounds := by
  -- a disk above or below the center, by the height of its cap
  have hdisk (z : ℝ) (hz : |z| = s.halfHeight) (c : Vec3 ℝ)
      (hc : c = s.center + (⟨0, 0, z⟩ : Vec3 ℝ)) :
      (Draw.onDisk c Vec3.unitX Vec3.unitY s.radius).Sure fun p =>
        p.OnSurface s.clearances s.bounds := by
    refine (Draw.Sure.onDisk c _ _ hr).mono fun p ⟨r, angle, hr, hle, hp⟩ => ?_
    have hpolar : p = s.center + Vec3.ofPolar r angle z := by
      rw [hp, Vec3.disk_eq, hc]
      ext <;> simp [Vec3.ofPolar]
    rw [hpolar]
    exact onSurface_add hr hle hz.le (.inr hz)
  refine (Draw.Sure.any _).bind fun index _ => ?_
  split
  · refine hdisk (-s.halfHeight) (by rw [abs_neg, abs_of_nonneg hh]) _ ?_
    ext <;> simp [Vec3.vertical, sub_eq_add_neg]
  · refine hdisk s.halfHeight (abs_of_nonneg hh) _ ?_
    ext <;> simp [Vec3.vertical]
  · refine Draw.Sure.uniform.bind fun turn _ => Draw.Sure.uniform.bind fun height hheight =>
      .pure ?_
    exact onSurface_add hr le_rfl (abs_height_le hh hheight.1 hheight.2.le) (.inl rfl)

end Tube

namespace Dome

variable {s : Dome ℝ}

theorem onSurface_add {d : Vec3 ℝ} (hbowl : d.length ≤ s.radius) (hlid : d.z ≤ 0)
    (hon : d.length = s.radius ∨ d.z = 0) :
    (s.center + d).OnSurface s.clearances s.bounds := by
  have hclearances : s.clearances (s.center + d) = [s.radius - d.length, -d.z] := by
    rw [clearances, Vec3.add_sub_left]
  obtain ⟨hx, hy, hz⟩ := d.abs_le_length
  rw [abs_le] at hx hy hz
  constructor
  · rw [hclearances]
    refine Clearances.least_eq_zero ?_ ?_
    · rcases hon with h | h
      · simp [h]
      · simp [h]
    · simp [hbowl, hlid]
  · rw [Box.contains_iff]
    simp only [bounds, Vec3.splat, Vec3.x_sub, Vec3.y_sub, Vec3.z_sub, Vec3.x_add, Vec3.y_add,
      Vec3.z_add]
    refine ⟨⟨?_, ?_⟩, ⟨?_, ?_⟩, ?_, ?_⟩ <;> linarith

theorem sure_onSurface (h : 0 ≤ s.radius) :
    s.pointOnSurface.Sure fun p => p.OnSurface s.clearances s.bounds := by
  refine (Draw.Sure.any _).bind fun index _ => ?_
  split
  · refine (Draw.Sure.onDisk s.center _ _ h).mono fun p ⟨r, angle, hr, hle, hp⟩ => ?_
    rw [hp, Vec3.disk_eq]
    exact onSurface_add ((Vec3.length_ofPolar hr angle).trans_le hle) le_rfl (.inr rfl)
  · refine Draw.Sure.uniform.bind fun depth hdepth => Draw.Sure.uniform.bind fun turn _ =>
      .pure ?_
    have hlength : (spherePoint (-depth) (Scalar.tau * turn) * s.radius).length = s.radius := by
      rw [Vec3.length_mul _ h, Vec3.length_spherePoint (by linarith) (by linarith), one_mul]
    refine onSurface_add hlength.le ?_ (.inl hlength)
    exact mul_nonpos_of_nonpos_of_nonneg (neg_nonpos.mpr hdepth.1) h

end Dome

end Arbor
