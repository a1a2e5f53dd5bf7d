import Arbor.Proofs.RealVectors
import Arbor.Solid.Shape

namespace Arbor

theorem surfaceTolerance_pos : (0 : ℝ) < surfaceTolerance := by
  norm_num [surfaceTolerance]

namespace Clearances

variable {cs : Clearances ℝ} {t : ℝ}

theorem inside_iff (h : cs ≠ []) : cs.location = .inside ↔ ∀ c ∈ cs, surfaceTolerance < c := by
  have hleast : surfaceTolerance < Scalar.least cs ↔ ∀ c ∈ cs, surfaceTolerance < c :=
    (Scalar.isLeast_least h).lt_iff
  rw [← hleast, location]
  split
  next hlt => exact iff_of_true rfl hlt
  next hlt =>
    refine iff_of_false ?_ hlt
    split <;> nofun

theorem outside_iff (h : cs ≠ []) :
    cs.location = .outside ↔ ∃ c ∈ cs, c < -surfaceTolerance := by
  have hleast : Scalar.least cs < -surfaceTolerance ↔ ∃ c ∈ cs, c < -surfaceTolerance :=
    isGLB_lt_iff (Scalar.isLeast_least h).isGLB
  rw [← hleast, location]
  split
  next hinside =>
    refine iff_of_false nofun fun hlt => ?_
    have hpos := surfaceTolerance_pos
    linarith
  next =>
    split
    next hlt => exact iff_of_true rfl hlt
    next hlt => exact iff_of_false nofun hlt

theorem lt_depth_iff (h : cs ≠ []) (ht : 0 ≤ t) : t < cs.depth ↔ ∀ c ∈ cs, t < c := by
  have hleast : t < Scalar.least cs ↔ ∀ c ∈ cs, t < c := (Scalar.isLeast_least h).lt_iff
  rw [depth, Scalar.greater_eq_max, lt_max_iff, hleast]
  exact or_iff_left (not_lt.mpr ht)

theorem lt_distance_iff (ht : 0 ≤ t) : t < cs.distance ↔ ∃ c ∈ cs, c < -t := by
  rw [distance, lt_isLUB_iff (Scalar.isGreatest_greatest (cs.map (- ·))).isLUB]
  constructor
  · rintro ⟨x, hx, hlt⟩
    rcases List.mem_cons.mp hx with rfl | hx
    · exact absurd hlt (not_lt.mpr ht)
    · obtain ⟨c, hc, rfl⟩ := List.mem_map.mp hx
      exact ⟨c, hc, lt_neg_of_lt_neg hlt⟩
  · rintro ⟨c, hc, hlt⟩
    exact ⟨-c, List.mem_cons_of_mem _ (List.mem_map_of_mem hc), lt_neg_of_lt_neg hlt⟩

end Clearances

/-- A function of points that changes no faster than the point moves. -/
def Nonexpansive (c : Vec3 ℝ → ℝ) : Prop := ∀ p q, |c p - c q| ≤ (p - q).length

/-- Clearances that are read off nonexpansive functions, at least one. -/
structure Gauges (cs : Vec3 ℝ → Clearances ℝ) (gauges : List (Vec3 ℝ → ℝ)) : Prop where
  reads : ∀ p, cs p = gauges.map fun c => c p
  some : gauges ≠ []
  nonexpansive : ∀ c ∈ gauges, Nonexpansive c

namespace Gauges

variable {cs : Vec3 ℝ → Clearances ℝ} {gauges : List (Vec3 ℝ → ℝ)}

theorem ne_nil (h : Gauges cs gauges) (p : Vec3 ℝ) : cs p ≠ [] := by
  rw [h.reads, Ne, List.map_eq_nil_iff]
  exact h.some

theorem distance_le (h : Gauges cs gauges) {p q : Vec3 ℝ} (hq : (cs q).location = .inside) :
    (cs p).distance ≤ (p - q).length := by
  by_contra hlt
  obtain ⟨x, hx, hbehind⟩ := (Clearances.lt_distance_iff (Vec3.length_nonneg _)).mp (not_le.mp hlt)
  rw [h.reads] at hx
  obtain ⟨c, hc, rfl⟩ := List.mem_map.mp hx
  have hin := (Clearances.inside_iff (h.ne_nil q)).mp hq (c q)
    (h.reads q ▸ List.mem_map_of_mem hc)
  have hnear := (abs_le.mp (h.nonexpansive c hc p q)).1
  have hpos := surfaceTolerance_pos
  linarith

theorem depth_le (h : Gauges cs gauges) {p q : Vec3 ℝ} (hq : (cs q).location = .outside) :
    (cs p).depth ≤ (p - q).length := by
  by_contra hlt
  have hin := (Clearances.lt_depth_iff (h.ne_nil p) (Vec3.length_nonneg _)).mp (not_le.mp hlt)
  obtain ⟨x, hx, hout⟩ := (Clearances.outside_iff (h.ne_nil q)).mp hq
  rw [h.reads] at hx
  obtain ⟨c, hc, rfl⟩ := List.mem_map.mp hx
  have hdeep := hin (c p) (h.reads p ▸ List.mem_map_of_mem hc)
  have hnear := (abs_le.mp (h.nonexpansive c hc p q)).2
  have hpos := surfaceTolerance_pos
  linarith

end Gauges

theorem Vec3.abs_le_length_of_sq_le {v : Vec3 ℝ} {x : ℝ} (h : x ^ 2 ≤ v.lengthSq) :
    |x| ≤ v.length := Real.abs_le_sqrt h

namespace Nonexpansive

theorem sub_length (r : ℝ) (center : Vec3 ℝ) : Nonexpansive fun p => r - (p - center).length := by
  intro p q
  have h := Vec3.abs_length_sub_length_le (p - center) (q - center)
  rw [Vec3.sub_sub_sub] at h
  rwa [sub_sub_sub_cancel_left, abs_sub_comm]

theorem height (center : Vec3 ℝ) : Nonexpansive fun p => -(p - center).z := by
  intro p q
  have h : (p - q).z ^ 2 ≤ (p - q).lengthSq := by
    rw [Vec3.lengthSq, Vec3.dot]
    nlinarith [sq_nonneg (p - q).x, sq_nonneg (p - q).y]
  have hz : -(p - center).z - -(q - center).z = -(p - q).z := by
    change -(p.z - center.z) - -(q.z - center.z) = -(p.z - q.z)
    ring
  rw [hz, abs_neg]
  exact Vec3.abs_le_length_of_sq_le h

theorem sub_abs {c : Vec3 ℝ → ℝ} (h : Nonexpansive c) (r : ℝ) :
    Nonexpansive fun p => r - |c p| := by
  intro p q
  rw [sub_sub_sub_cancel_left, abs_sub_comm]
  exact (abs_abs_sub_abs_le _ _).trans (h p q)

theorem sub_perp (r : ℝ) (center : Vec3 ℝ) : Nonexpansive fun p => r - (p - center).perp := by
  intro p q
  have hflat (v : Vec3 ℝ) : v.perp = (⟨v.x, v.y, 0⟩ : Vec3 ℝ).length := by
    rw [Vec3.perp, Vec3.length, Vec3.lengthSq, Vec3.dot, mul_zero, add_zero]
  have hsub : (⟨(p - center).x, (p - center).y, 0⟩ - ⟨(q - center).x, (q - center).y, 0⟩ : Vec3 ℝ) =
      ⟨(p - q).x, (p - q).y, 0⟩ :=
    (Vec3.mk.injEq ..).mpr ⟨sub_sub_sub_cancel_right .., sub_sub_sub_cancel_right .., sub_zero 0⟩
  have hle : (⟨(p - q).x, (p - q).y, 0⟩ : Vec3 ℝ).length ≤ (p - q).length := by
    refine Real.sqrt_le_sqrt ?_
    rw [Vec3.lengthSq, Vec3.lengthSq, Vec3.dot, Vec3.dot]
    nlinarith [sq_nonneg (p - q).z]
  rw [sub_sub_sub_cancel_left, abs_sub_comm, hflat, hflat]
  exact (Vec3.abs_length_sub_length_le _ _).trans (hsub ▸ hle)

end Nonexpansive

theorem Orb.gauges (s : Orb ℝ) :
    Gauges s.clearances [fun p => s.radius - (p - s.center).length] :=
  ⟨fun _ => rfl, List.cons_ne_nil _ _,
    List.forall_mem_singleton.mpr (.sub_length s.radius s.center)⟩

theorem Tube.gauges (s : Tube ℝ) : Gauges s.clearances
    [fun p => s.halfHeight - |(p - s.center).z|, fun p => s.radius - (p - s.center).perp] := by
  refine ⟨fun _ => rfl, List.cons_ne_nil _ _, List.forall_mem_cons.mpr ⟨?_, ?_⟩⟩
  · have h := (Nonexpansive.height s.center).sub_abs s.halfHeight
    simpa only [abs_neg] using h
  · exact List.forall_mem_singleton.mpr (.sub_perp s.radius s.center)

theorem Dome.gauges (s : Dome ℝ) : Gauges s.clearances
    [fun p => s.radius - (p - s.center).length, fun p => -(p - s.center).z] :=
  ⟨fun _ => rfl, List.cons_ne_nil _ _, List.forall_mem_cons.mpr ⟨.sub_length s.radius s.center,
    List.forall_mem_singleton.mpr (.height s.center)⟩⟩

namespace Frustum

noncomputable def axial (s : Frustum ℝ) (p : Vec3 ℝ) : ℝ := (p - s.center).dot s.axis

noncomputable def radial (s : Frustum ℝ) (p : Vec3 ℝ) : ℝ :=
  ((p - s.center) - s.axis * s.axial p).length

noncomputable def side (s : Frustum ℝ) (p : Vec3 ℝ) : ℝ :=
  (s.radiusAt (s.axial p) - s.radial p) *
    (if 0 < s.slant then Scalar.ofNat 2 * s.halfLength / s.slant else 1)

variable {s : Frustum ℝ}

theorem axial_sub (s : Frustum ℝ) (p q : Vec3 ℝ) : s.axial p - s.axial q = (p - q).dot s.axis := by
  rw [axial, axial, ← Vec3.dot_sub, Vec3.sub_sub_sub]

/-- Along and across the axis together a point moves as far as it moves. -/
theorem sq_add_sq_le (haxis : s.axis.dot s.axis = 1) (p q : Vec3 ℝ) :
    (s.axial p - s.axial q) ^ 2 + (s.radial p - s.radial q) ^ 2 ≤ (p - q).lengthSq := by
  let step := s.axial p - s.axial q
  have hacross : ((p - s.center) - s.axis * s.axial p) - ((q - s.center) - s.axis * s.axial q) =
      (p - q) - s.axis * step := by
    ext <;> simp [step] <;> ring
  have hradial : (s.radial p - s.radial q) ^ 2 ≤ ((p - q) - s.axis * step).lengthSq := by
    rw [← Vec3.length_sq, ← hacross, ← sq_abs]
    exact pow_le_pow_left₀ (abs_nonneg _) (Vec3.abs_length_sub_length_le _ _) 2
  have hstep : step = (p - q).dot s.axis := s.axial_sub p q
  have hpythagoras : ((p - q) - s.axis * step).lengthSq = (p - q).lengthSq - step ^ 2 := by
    simp only [Vec3.lengthSq_eq, Vec3.dot_eq, Vec3.x_sub, Vec3.y_sub, Vec3.z_sub, Vec3.x_mul,
      Vec3.y_mul, Vec3.z_mul] at hstep haxis ⊢
    linear_combination 2 * step * hstep + step ^ 2 * haxis
  change step ^ 2 + _ ≤ _
  linarith

theorem slant_sq (s : Frustum ℝ) :
    s.slant ^ 2 = (s.endRadius - s.startRadius) ^ 2 + (2 * s.halfLength) ^ 2 := by
  have hslant : s.slant = √((s.startRadius - s.endRadius) * (s.startRadius - s.endRadius) +
      Scalar.ofNat 4 * s.halfLength * s.halfLength) := rfl
  rw [hslant, Scalar.ofNat_eq_cast, Real.sq_sqrt]
  · push_cast
    ring
  · push_cast
    nlinarith [sq_nonneg (s.startRadius - s.endRadius), sq_nonneg s.halfLength]

theorem slant_nonneg (s : Frustum ℝ) : 0 ≤ s.slant := Real.sqrt_nonneg _

theorem side_slope (h : 0 ≤ s.halfLength) : ∃ a b : ℝ, a ^ 2 + b ^ 2 ≤ 1 ∧ ∀ p q,
    s.side p - s.side q =
      a * (s.axial p - s.axial q) - b * (s.radial p - s.radial q) := by
  have hsq := s.slant_sq
  rcases h.eq_or_lt with hflat | hlong
  · -- without a length, the radius is the same everywhere
    have hradius (z : ℝ) : s.radiusAt z = max s.startRadius s.endRadius := by
      rw [radiusAt, if_pos hflat.ge, Scalar.greater_eq_max]
    by_cases hpos : 0 < s.slant
    · refine ⟨0, 0, by norm_num, fun p q => ?_⟩
      rw [side, side, if_pos hpos, ← hflat]
      ring
    · refine ⟨0, 1, by norm_num, fun p q => ?_⟩
      rw [side, side, if_neg hpos, hradius, hradius]
      ring
  · have hpos : 0 < s.slant := by
      refine s.slant_nonneg.lt_of_ne fun hzero => ?_
      rw [← hzero] at hsq
      nlinarith [sq_nonneg (s.endRadius - s.startRadius), sq_pos_of_pos hlong]
    have hradius (z : ℝ) : s.radiusAt z =
        s.startRadius +
          (s.endRadius - s.startRadius) * ((z + s.halfLength) / (2 * s.halfLength)) := by
      rw [radiusAt, if_neg (not_le.mpr hlong), Scalar.ofNat_eq_cast, Nat.cast_ofNat]
    refine ⟨(s.endRadius - s.startRadius) / s.slant, 2 * s.halfLength / s.slant, ?_, fun p q => ?_⟩
    · rw [div_pow, div_pow, ← add_div, ← hsq, div_self (pow_ne_zero 2 hpos.ne')]
    · rw [side, side, if_pos hpos, hradius, hradius, Scalar.ofNat_eq_cast, Nat.cast_ofNat]
      field_simp
      ring

theorem side_nonexpansive (haxis : s.axis.dot s.axis = 1) (h : 0 ≤ s.halfLength) :
    Nonexpansive s.side := by
  intro p q
  obtain ⟨a, b, hslope, hside⟩ := side_slope h
  apply Vec3.abs_le_length_of_sq_le
  calc
    (s.side p - s.side q) ^ 2 =
        (a * (s.axial p - s.axial q) - b * (s.radial p - s.radial q)) ^ 2 := by rw [hside]
    _ ≤ (a ^ 2 + b ^ 2) * ((s.axial p - s.axial q) ^ 2 + (s.radial p - s.radial q) ^ 2) := by
      linarith [sq_nonneg (a * (s.radial p - s.radial q) + b * (s.axial p - s.axial q))]
    _ ≤ 1 * (p - q).lengthSq := by
      gcongr
      exact sq_add_sq_le haxis p q
    _ = (p - q).lengthSq := one_mul _

theorem gauges (haxis : s.axis.dot s.axis = 1) (h : 0 ≤ s.halfLength) :
    Gauges s.clearances [fun p => s.halfLength - |s.axial p|, s.side] := by
  have hside := List.forall_mem_singleton.mpr (side_nonexpansive haxis h)
  refine ⟨fun _ => rfl, List.cons_ne_nil _ _, List.forall_mem_cons.mpr
    ⟨Nonexpansive.sub_abs ?_ s.halfLength, hside⟩⟩
  intro p q
  apply Vec3.abs_le_length_of_sq_le
  exact (le_add_of_nonneg_right (sq_nonneg _)).trans (sq_add_sq_le haxis p q)

theorem gauges_along (start : Vec3 ℝ) {direction : Vec3 ℝ} {length : ℝ} (r q : ℝ)
    (hdirection : direction ≠ 0) (hlength : 0 ≤ length) :
    ∃ gauges, Gauges (along start direction length r q).clearances gauges := by
  have hhalf : 0 ≤ (along start direction length r q).halfLength := by
    rw [along, Scalar.ofNat_eq_cast]
    positivity
  exact ⟨_, gauges (Vec3.dot_normalizeOrZero hdirection) hhalf⟩

end Frustum

namespace Shape

/-- Shapes that are described by formulas. A frustum is one that extends along a direction. -/
inductive Analytic : Shape ℝ → Prop
  | orb (s : Orb ℝ) : Analytic (.orb s)
  | tube (s : Tube ℝ) : Analytic (.tube s)
  | dome (s : Dome ℝ) : Analytic (.dome s)
  | frustum (start direction : Vec3 ℝ) (length startRadius endRadius : ℝ)
      (hdirection : direction ≠ 0) (hlength : 0 ≤ length) :
      Analytic (.frustum (.along start direction length startRadius endRadius))

theorem Analytic.gauged {s : Shape ℝ} (h : s.Analytic) : ∃ cs gauges, Gauges cs gauges ∧
    ∀ p, s.location p = (cs p).location ∧ s.distanceToIn p = (cs p).distance ∧
      s.distanceToOut p = (cs p).depth := by
  cases h with
  | orb s => exact ⟨s.clearances, _, s.gauges, fun _ => ⟨rfl, rfl, rfl⟩⟩
  | tube s => exact ⟨s.clearances, _, s.gauges, fun _ => ⟨rfl, rfl, rfl⟩⟩
  | dome s => exact ⟨s.clearances, _, s.gauges, fun _ => ⟨rfl, rfl, rfl⟩⟩
  | frustum start direction length r q hdirection hlength =>
      obtain ⟨gauges, hgauges⟩ := Frustum.gauges_along start r q hdirection hlength
      exact ⟨_, gauges, hgauges, fun _ => ⟨rfl, rfl, rfl⟩⟩

/-- Distances of round solids are safe: no point on the other side is nearer. They tell where the
point lies, and only one of them is positive. -/
theorem distances_of_analytic {s : Shape ℝ} (h : s.Analytic) :
    (∀ p q, s.location q = .inside → s.distanceToIn p ≤ (p - q).length) ∧
    (∀ p q, s.location q = .outside → s.distanceToOut p ≤ (p - q).length) ∧
    ∀ p, (s.location p = .inside ↔ surfaceTolerance < s.distanceToOut p) ∧
      (s.location p = .outside ↔ surfaceTolerance < s.distanceToIn p) ∧
      ¬ (0 < s.distanceToIn p ∧ 0 < s.distanceToOut p) := by
  obtain ⟨cs, gauges, hgauges, hanswers⟩ := h.gauged
  have htolerance := surfaceTolerance_pos.le
  refine ⟨fun p q hq => ?_, fun p q hq => ?_, fun p => ?_⟩
  · rw [(hanswers q).1] at hq
    rw [(hanswers p).2.1]
    exact hgauges.distance_le hq
  · rw [(hanswers q).1] at hq
    rw [(hanswers p).2.2]
    exact hgauges.depth_le hq
  · obtain ⟨hlocation, hin, hout⟩ := hanswers p
    have hne := hgauges.ne_nil p
    rw [hlocation, hin, hout]
    refine ⟨?_, ?_, ?_⟩
    · rw [Clearances.inside_iff hne, Clearances.lt_depth_iff hne htolerance]
    · rw [Clearances.outside_iff hne, Clearances.lt_distance_iff htolerance]
    · rintro ⟨hfar, hdeep⟩
      obtain ⟨c, hc, hneg⟩ := (Clearances.lt_distance_iff le_rfl).mp hfar
      have hpos := (Clearances.lt_depth_iff hne le_rfl).mp hdeep c hc
      linarith

noncomputable def cone : Frustum ℝ := .along 0 ⟨0, 0, 3⟩ 4 3 0

theorem cone_direction_ne : (⟨0, 0, 3⟩ : Vec3 ℝ) ≠ 0 := by
  intro h
  have hz : (3 : ℝ) = 0 := congrArg Vec3.z h
  norm_num at hz

theorem cone_eq : cone = ⟨⟨0, 0, 2⟩, ⟨0, 0, 1⟩, 2, 3, 0⟩ := by
  have hlength : (⟨0, 0, 3⟩ : Vec3 ℝ).length = 3 :=
    Vec3.length_eq (by norm_num) (by norm_num [Vec3.lengthSq_eq])
  have haxis : (⟨0, 0, 3⟩ : Vec3 ℝ).normalizeOrZero = ⟨0, 0, 1⟩ := by
    rw [Vec3.normalizeOrZero, Vec3.normalize?_eq cone_direction_ne, hlength, Option.getD_some]
    ext <;> norm_num
  have hhalf : (4 / Scalar.ofNat 2 : ℝ) = 2 := by norm_num [Scalar.ofNat_eq_cast]
  have hcenter : (0 : Vec3 ℝ) + (⟨0, 0, 1⟩ : Vec3 ℝ) * (2 : ℝ) = ⟨0, 0, 2⟩ := by
    ext <;> simp
  rw [cone, Frustum.along, haxis, hhalf, hcenter]

theorem cone_clearances : cone.clearances ⟨0, 0, 1⟩ = [1, 9 / 5] := by
  have haxial : cone.axial ⟨0, 0, 1⟩ = -1 := by
    norm_num [cone_eq, Frustum.axial, Vec3.dot_eq]
  have hradial : cone.radial ⟨0, 0, 1⟩ = 0 := by
    refine Vec3.length_eq le_rfl ?_
    rw [haxial, Vec3.lengthSq_eq]
    norm_num [cone_eq]
  have hslant : cone.slant = 5 := by
    refine (sq_eq_sq₀ cone.slant_nonneg (by norm_num)).mp ?_
    rw [Frustum.slant_sq]
    norm_num [cone_eq]
  have hside : cone.side ⟨0, 0, 1⟩ = 9 / 5 := by
    rw [Frustum.side, haxial, hradial, hslant, Frustum.radiusAt]
    norm_num [cone_eq, Scalar.ofNat_eq_cast]
  change [cone.halfLength - |cone.axial ⟨0, 0, 1⟩|, cone.side ⟨0, 0, 1⟩] = _
  rw [haxial, hside]
  norm_num [cone_eq]

/-- From a point above the tip to one inside. -/
theorem distances_of_analytic_cone :
    (frustum cone).Analytic ∧ (frustum cone).location ⟨0, 0, 1⟩ = .inside ∧
      (frustum cone).distanceToIn ⟨0, 0, 7⟩ ≤ 6 := by
  have hcone : (frustum cone).Analytic :=
    .frustum 0 _ 4 3 0 cone_direction_ne (by norm_num)
  have hinside : (frustum cone).location ⟨0, 0, 1⟩ = .inside := by
    rw [location, cone_clearances, Clearances.inside_iff (List.cons_ne_nil _ _)]
    norm_num [surfaceTolerance]
  have hway : ((⟨0, 0, 7⟩ : Vec3 ℝ) - ⟨0, 0, 1⟩).length = 6 :=
    Vec3.length_eq (by norm_num) (by norm_num [Vec3.lengthSq_eq])
  exact ⟨hcone, hinside, hway ▸ (distances_of_analytic hcone).1 _ _ hinside⟩

end Shape

end Arbor
