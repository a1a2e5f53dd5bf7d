import Arbor.Proofs.ClosestPoints
import Arbor.Proofs.InertTriangles
import Arbor.Proofs.RealVectors
import Arbor.Scalar.Double
import Arbor.Solid.Tessellation

namespace Arbor

variable {α : Type}

/-- Exact numbers, and a value that is not a number, which spreads through arithmetic and fails all
comparisons. -/
inductive Checked (α : Type) where
  | number (x : α)
  | undefined

namespace Checked

def map (f : α → α) : Checked α → Checked α
  | number x => number (f x)
  | undefined => undefined

def map₂ (f : α → α → Checked α) : Checked α → Checked α → Checked α
  | number x, number y => f x y
  | _, _ => undefined

def Compares (r : α → α → Prop) : Checked α → Checked α → Prop
  | number x, number y => r x y
  | _, _ => False

instance (r : α → α → Prop) [DecidableRel r] : DecidableRel (Compares r)
  | number x, number y => inferInstanceAs (Decidable (r x y))
  | number _, undefined => isFalse id
  | undefined, _ => isFalse id

variable [ExactScalar α]

instance : Scalar (Checked α) where
  zero := number 0
  one := number 1
  add := map₂ fun x y => number (x + y)
  sub := map₂ fun x y => number (x - y)
  mul := map₂ fun x y => number (x * y)
  div := map₂ fun x y => if y = 0 then undefined else number (x / y)
  neg := map fun x => -x
  lt := Compares (· < ·)
  le := Compares (· ≤ ·)
  beq x y := decide (Compares (· = ·) x y)
  ofScientific m sign e := number (OfScientific.ofScientific m sign e)
  decLt := inferInstanceAs (DecidableRel (Compares (· < ·)))
  decLe := inferInstanceAs (DecidableRel (Compares (· ≤ ·)))
  ofInt n := number (Scalar.ofInt n)
  abs := map Scalar.abs
  rem := map₂ fun x y => if y = 0 then undefined else number (Scalar.rem x y)
  pi := number Scalar.pi
  sqrt
    | number x => if x < 0 then undefined else number (Scalar.sqrt x)
    | undefined => undefined
  sin := map Scalar.sin
  cos := map Scalar.cos
  acos
    | number x => if |x| ≤ 1 then number (Scalar.acos x) else undefined
    | undefined => undefined
  atan := map Scalar.atan
  atan2 := map₂ fun y x => number (Scalar.atan2 y x)

section Numbers

variable (x y : α)

theorem zero_eq : (0 : Checked α) = number 0 := rfl

theorem number_add : number x + number y = number (x + y) := rfl

theorem number_sub : number x - number y = number (x - y) := rfl

theorem number_mul : number x * number y = number (x * y) := rfl

theorem number_le : number x ≤ number y ↔ x ≤ y := Iff.rfl

theorem number_beq : (number x == number y) = decide (x = y) := rfl

end Numbers

theorem number_div {x y : α} (h : y ≠ 0) : number x / number y = number (x / y) := if_neg h

theorem number_div_zero (x : α) : number x / number 0 = (undefined : Checked α) := if_pos rfl

theorem lesser_number (x y : α) :
    Scalar.lesser (number x) (number y) = number (Scalar.lesser x y) := by
  have hself : (number x == number x) = true := decide_eq_true (rfl : x = x)
  have hself' : (x == x) = true := (ExactScalar.beq_iff x x).mpr rfl
  rw [Scalar.lesser, if_pos hself, Scalar.lesser, if_pos hself']
  exact (apply_ite number ..).symm

theorem least_number {xs : List (Checked α)} {ys : List α}
    (h : xs.filter (fun x => x == x) = ys.map number) :
    Scalar.least xs = if ys = [] then undefined else number (Scalar.least ys) := by
  have hself : ys.filter (fun y => y == y) = ys :=
    List.filter_eq_self.mpr fun y _ => (ExactScalar.beq_iff y y).mpr rfl
  rw [Scalar.least, h]
  cases ys with
  | nil => exact number_div_zero 1
  | cons y ys =>
      rw [if_neg (List.cons_ne_nil y ys), Scalar.least, hself]
      change (ys.map number).foldl Scalar.lesser (number y) = number (ys.foldl Scalar.lesser y)
      rw [List.foldl_map]
      exact List.foldl_hom number lesser_number

end Checked

namespace Vec3

open Checked

def checked (v : Vec3 α) : Vec3 (Checked α) := ⟨number v.x, number v.y, number v.z⟩

def undefined : Vec3 (Checked α) := ⟨.undefined, .undefined, .undefined⟩

variable [ExactScalar α]

theorem checked_sub (v w : Vec3 α) : v.checked - w.checked = (v - w).checked := rfl

theorem dot_checked (v w : Vec3 α) : v.checked.dot w.checked = number (v.dot w) := rfl

theorem length_checked (v : Vec3 α) : v.checked.length = number v.length :=
  if_neg (not_lt.mpr v.lengthSq_nonneg)

end Vec3

def Triangle.checked (t : Triangle α) : Triangle (Checked α) :=
  ⟨t.a.checked, t.b.checked, t.c.checked⟩

def Leg.checked (leg : Leg α) : Leg (Checked α) :=
  ⟨leg.edge.checked, .number leg.dividend, .number leg.divisor⟩

def Walk.checked (walk : Walk α) : Walk (Checked α) :=
  ⟨walk.start.checked, walk.legs.map Leg.checked⟩

variable [ExactScalar α]

theorem Walk.goal_checked {walk : Walk α} (h : ∀ leg ∈ walk.legs, leg.divisor ≠ 0) :
    walk.checked.goal = walk.goal.checked := by
  obtain ⟨start, legs⟩ := walk
  unfold Walk.goal Walk.checked
  rw [List.foldl_map]
  induction legs generalizing start with
  | nil => rfl
  | cons leg legs ih =>
      obtain ⟨hleg, hlegs⟩ := List.forall_mem_cons.mp h
      have hquotient : leg.checked.dividend / leg.checked.divisor =
          .number (leg.dividend / leg.divisor) := Checked.number_div hleg
      rw [List.foldl_cons, List.foldl_cons, hquotient]
      exact ih (start + leg.edge * (leg.dividend / leg.divisor)) hlegs

theorem Walk.goal_undefined {start edge : Vec3 α} {dividend : α} :
    (⟨start, [⟨edge, dividend, 0⟩]⟩ : Walk α).checked.goal = Vec3.undefined := by
  have hquotient : Checked.number dividend / Checked.number (0 : α) = .undefined :=
    Checked.number_div_zero dividend
  change start.checked + edge.checked * (Checked.number dividend / Checked.number 0) = _
  rw [hquotient]
  rfl

namespace Triangle

theorem walk?_checked (t : Triangle α) (p : Vec3 α) :
    t.checked.walk? p.checked = (t.walk? p).map Walk.checked := by
  unfold walk? checked
  simp only [Vec3.checked_sub, Vec3.dot_checked, Checked.zero_eq, Checked.number_sub,
    Checked.number_mul, Checked.number_add, Checked.number_le, Checked.number_beq,
    ExactScalar.beq_iff, decide_eq_true_eq, apply_ite (Option.map Walk.checked)]
  rfl

/-- The first two corners are one point, and the third one leads from it towards `p`. -/
def Blind (t : Triangle α) (p : Vec3 α) : Prop :=
  t.a = t.b ∧ 0 < (t.c - t.a).dot (p - t.a)

instance (t : Triangle α) (p : Vec3 α) : Decidable (t.Blind p) :=
  inferInstanceAs (Decidable (_ ∧ _))

variable {t : Triangle α} {p : Vec3 α}

theorem walk?_of_blind (h : t.Blind p) : t.walk? p = some ⟨t.a, [⟨t.b - t.a, 0, 0⟩]⟩ := by
  obtain ⟨hab, hpos⟩ := h
  have hzero (v : Vec3 α) : (t.b - t.a).dot v = 0 := by
    simp [hab, Vec3.dot_eq]
  rw [walk?_eq (hzero _) rfl (hzero _) rfl (hzero _), if_neg fun h => hpos.not_ge h.2,
    if_neg fun h => hpos.not_ge (by simpa using h.2), if_pos (by simp)]

theorem exists_walk_of_edge {x y l k : α} (hx : (t.b - t.a).dot (p - t.a) = x)
    (hy : (t.c - t.a).dot (p - t.a) = y) (hl : (t.b - t.a).lengthSq = l)
    (hk : (t.b - t.a).dot (t.c - t.a) = k) (hpos : 0 < l) (ha : x ≤ 0 → y ≤ 0)
    (hb : 0 ≤ x - l → y - k ≤ x - l) (hedge : l * y - k * x ≤ 0) :
    ∃ walk, t.walk? p = some walk ∧ ∀ leg ∈ walk.legs, leg.divisor ≠ 0 := by
  rw [walk?_eq hx hy hl rfl hk]
  split
  next => exact ⟨_, rfl, List.forall_mem_nil _⟩
  next hnota =>
  split
  next => exact ⟨_, rfl, List.forall_mem_nil _⟩
  next hnotb =>
  have hstart : 0 ≤ x := le_of_not_ge fun hle => hnota ⟨hle, ha hle⟩
  have hend : x - l ≤ 0 := le_of_not_ge fun hle => hnotb ⟨hle, hb hle⟩
  rw [if_pos ⟨hedge, hstart, hend⟩]
  exact ⟨_, rfl, List.forall_mem_singleton.mpr hpos.ne'⟩

/-- Every other search comes to an end without a division by zero, also where corners coincide. -/
theorem exists_walk (h : ¬ t.Blind p) :
    ∃ walk, t.walk? p = some walk ∧ ∀ leg ∈ walk.legs, leg.divisor ≠ 0 := by
  by_cases hab : t.a = t.b
  · have hle : (t.c - t.a).dot (p - t.a) ≤ 0 := not_lt.mp fun hpos => h ⟨hab, hpos⟩
    have hzero (v : Vec3 α) : (t.b - t.a).dot v = 0 := by simp [hab, Vec3.dot_eq]
    refine ⟨⟨t.a, []⟩, ?_, List.forall_mem_nil _⟩
    rw [walk?_eq (hzero _) rfl (hzero _) rfl (hzero _), if_pos ⟨le_rfl, hle⟩]
  have hpos := Vec3.lengthSq_sub_pos hab
  by_cases hbc : t.b = t.c
  · have hsame (v : Vec3 α) : (t.c - t.a).dot v = (t.b - t.a).dot v := by rw [hbc]
    have hlength : (t.b - t.a).dot (t.c - t.a) = (t.b - t.a).lengthSq := hbc ▸ rfl
    exact exists_walk_of_edge rfl (hsame _) rfl hlength hpos id (fun _ => le_rfl) (sub_self _).le
  by_cases hca : t.c = t.a
  · have hzero (v : Vec3 α) : (t.c - t.a).dot v = 0 := by simp [hca, Vec3.dot_eq]
    have hzero' : (t.b - t.a).dot (t.c - t.a) = 0 := (Vec3.dot_comm _ _).trans (hzero _)
    exact exists_walk_of_edge rfl (hzero _) rfl hzero' hpos (fun _ => le_rfl) (by simp) (by simp)
  · obtain ⟨walk, v, w, hwalk, hdivisors, -⟩ := exists_leastWeights p hab hbc hca
    exact ⟨walk, hwalk, hdivisors⟩

theorem closestPoint_checked {walk : Walk α} (h : t.walk? p = some walk) :
    t.checked.closestPoint p.checked = walk.checked.goal := by
  rw [closestPoint_eq, walk?_checked, h]
  rfl

theorem distance_of_blind (h : t.Blind p) : t.checked.distance p.checked = .undefined := by
  rw [distance, closestPoint_checked (walk?_of_blind h), Walk.goal_undefined]
  rfl

theorem distance_of_not_blind (h : ¬ t.Blind p) :
    t.checked.distance p.checked = .number (t.distance p) := by
  obtain ⟨walk, hwalk, hdivisors⟩ := exists_walk h
  have hclosest : t.closestPoint p = walk.goal := by
    rw [closestPoint_eq, hwalk]
    rfl
  rw [distance, closestPoint_checked hwalk, Walk.goal_checked hdivisors, Vec3.checked_sub,
    Vec3.length_checked, distance, hclosest]

end Triangle

namespace Tessellation

def sighted (facets : List (Triangle α)) (p : Vec3 α) : List (Triangle α) :=
  facets.filter fun t => ¬ t.Blind p

theorem facetDistance_checked (facets : List (Triangle α)) (p : Vec3 α) :
    (ofFacets (facets.map Triangle.checked)).facetDistance p.checked =
      if sighted facets p = [] then .undefined
      else .number (Scalar.least ((sighted facets p).map fun t => t.distance p)) := by
  have hself (t : Triangle α) :
      (t.checked.distance p.checked == t.checked.distance p.checked) = decide (¬ t.Blind p) := by
    by_cases h : t.Blind p
    · rw [Triangle.distance_of_blind h, decide_eq_false (not_not.mpr h)]
      exact decide_eq_false id
    · rw [Triangle.distance_of_not_blind h, decide_eq_true h]
      exact decide_eq_true (rfl : t.distance p = t.distance p)
  have hnumbers : ((facets.map Triangle.checked).map fun t => t.distance p.checked).filter
      (fun x => x == x) = ((sighted facets p).map fun t => t.distance p).map .number := by
    have hfilter : facets.filter ((fun x => x == x) ∘ (fun t => t.distance p.checked) ∘
        Triangle.checked) = sighted facets p := List.filter_congr fun t _ => hself t
    rw [List.map_map, List.filter_map, hfilter, List.map_map]
    refine List.map_congr_left fun t ht => ?_
    exact Triangle.distance_of_not_blind (of_decide_eq_true (List.mem_filter.mp ht).2)
  rw [facetDistance, ofFacets, Checked.least_number hnumbers]
  simp only [List.map_eq_nil_iff]

theorem facetDistance_of_mesh (m : Mesh ℝ) (p : Vec3 ℝ) :
    (ofFacets ((ofMesh m).facets.map Triangle.checked)).facetDistance p.checked =
      if m.triangles = [] then .undefined else .number ((ofMesh m).facetDistance p) := by
  have hsighted : sighted m.triangles p = m.triangles := by
    refine List.filter_eq_self.mpr fun t ht => decide_eq_true fun hblind => ?_
    obtain ⟨f, hf, htriangle⟩ := List.mem_filterMap.mp ht
    have hsound := (List.mem_filter.mp hf).2
    have hclose : (t.a - t.b).length < Mesh.degenerateTolerance := by
      rw [hblind.1, length_sub_self]
      exact Mesh.degenerateTolerance_pos
    rw [Mesh.isDegenerate, htriangle] at hsound
    simp [Triangle.hasCoincidentCorners, hclose] at hsound
  have hdistance := facetDistance_checked m.triangles p
  rwa [hsighted] at hdistance

/-- The search for the closest point of a triangle finds a way for all corners, be they coincident
or in line. It divides by zero just where the first two corners are one point and the third one
leads from it towards the given point, and there it divides zero by zero. Such a triangle has no
distance and is passed over among the facets of a solid; all others have one and take part. -/
theorem distances_of_facets (facets : List (Triangle α)) (p : Vec3 α) :
    (∀ t : Triangle α, ∃ walk, t.walk? p = some walk ∧
      ((∃ leg ∈ walk.legs, leg.divisor = 0) ↔ t.a = t.b ∧ 0 < (t.c - t.a).dot (p - t.a)) ∧
      (∀ leg ∈ walk.legs, leg.divisor = 0 → leg.dividend = 0) ∧
      (t.Blind p → t.checked.distance p.checked = .undefined) ∧
      (¬ t.Blind p → t.checked.distance p.checked = .number (t.distance p))) ∧
    (ofFacets (facets.map Triangle.checked)).facetDistance p.checked =
      if sighted facets p = [] then .undefined
      else .number (Scalar.least ((sighted facets p).map fun t => t.distance p)) := by
  refine ⟨fun t => ?_, facetDistance_checked facets p⟩
  by_cases h : t.Blind p
  · refine ⟨_, Triangle.walk?_of_blind h, iff_of_true ⟨_, List.mem_singleton_self _, rfl⟩ h, ?_,
      fun _ => Triangle.distance_of_blind h, fun hnot => absurd h hnot⟩
    exact List.forall_mem_singleton.mpr fun _ => rfl
  · obtain ⟨walk, hwalk, hdivisors⟩ := Triangle.exists_walk h
    refine ⟨walk, hwalk, iff_of_false ?_ h, fun leg hleg hzero => ?_, fun hb => absurd hb h,
      fun _ => Triangle.distance_of_not_blind h⟩
    · rintro ⟨leg, hleg, hzero⟩
      exact hdivisors leg hleg hzero
    · exact absurd hzero (hdivisors leg hleg)

noncomputable def folded : Triangle ℝ := ⟨⟨0, 0, 0⟩, ⟨0, 0, 0⟩, ⟨1, 0, 0⟩⟩

noncomputable def refolded : Triangle ℝ := ⟨⟨1, 0, 0⟩, ⟨0, 0, 0⟩, ⟨0, 0, 0⟩⟩

theorem blind_folded : folded.Blind ⟨1, 1, 0⟩ := ⟨rfl, by norm_num [folded, Vec3.dot_eq]⟩

theorem not_blind_refolded (p : Vec3 ℝ) : ¬ refolded.Blind p := fun h => by
  simpa [refolded] using congrArg Vec3.x h.1

theorem closestPoint_refolded : refolded.closestPoint ⟨1, 1, 0⟩ = ⟨1, 0, 0⟩ := by
  have hzero : (refolded.b - refolded.a).dot (⟨1, 1, 0⟩ - refolded.a) = 0 := by
    simp [refolded, Vec3.dot_eq]
  rw [Triangle.closestPoint_eq, Triangle.walk?_eq hzero hzero rfl rfl rfl, if_pos ⟨le_rfl, le_rfl⟩]
  rfl

theorem distances_of_facets_folded :
    (ofFacets ([folded, refolded].map Triangle.checked)).facetDistance
        (⟨1, 1, 0⟩ : Vec3 ℝ).checked =
      .number (Scalar.least [refolded.distance ⟨1, 1, 0⟩]) ∧
    folded.checked.distance (⟨1, 1, 0⟩ : Vec3 ℝ).checked = .undefined ∧
    refolded.checked.distance (⟨1, 1, 0⟩ : Vec3 ℝ).checked =
      .number (refolded.distance ⟨1, 1, 0⟩) := by
  obtain ⟨hwalks, hdistance⟩ := distances_of_facets [folded, refolded] ⟨1, 1, 0⟩
  have hsighted : sighted [folded, refolded] ⟨1, 1, 0⟩ = [refolded] := by
    simp [sighted, blind_folded, not_blind_refolded]
  rw [hsighted] at hdistance
  obtain ⟨-, -, -, -, hblind, -⟩ := hwalks folded
  obtain ⟨-, -, -, -, -, hnumber⟩ := hwalks refolded
  exact ⟨hdistance, hblind blind_folded, hnumber (not_blind_refolded _)⟩

/-- A folded facet has no distance from a point beside it, in the reals as in doubles. With its
corners in another order it has one. -/
theorem folded_facet_passed_over :
    folded.walk? ⟨1, 1, 0⟩ = some ⟨⟨0, 0, 0⟩, [⟨⟨0, 0, 0⟩, 0, 0⟩]⟩ ∧
      folded.checked.distance (⟨1, 1, 0⟩ : Vec3 ℝ).checked = .undefined ∧
      (ofFacets [folded.checked]).facetDistance (⟨1, 1, 0⟩ : Vec3 ℝ).checked = .undefined ∧
      refolded.checked.distance (⟨1, 1, 0⟩ : Vec3 ℝ).checked = .number 1 ∧
      ((⟨⟨0, 0, 0⟩, ⟨0, 0, 0⟩, ⟨1, 0, 0⟩⟩ : Triangle Float).distance ⟨1, 1, 0⟩).isNaN = true := by
  refine ⟨?_, Triangle.distance_of_blind blind_folded, ?_, ?_, by decide +kernel⟩
  · have hedge : folded.b - folded.a = ⟨0, 0, 0⟩ := by ext <;> simp [folded]
    rw [Triangle.walk?_of_blind blind_folded, hedge]
    rfl
  · have hnone : sighted [folded] ⟨1, 1, 0⟩ = [] := by simp [sighted, blind_folded]
    have hdistance := facetDistance_checked [folded] ⟨1, 1, 0⟩
    rwa [hnone] at hdistance
  · rw [Triangle.distance_of_not_blind (not_blind_refolded _), Triangle.distance,
      closestPoint_refolded, Vec3.length_eq zero_le_one]
    norm_num [Vec3.lengthSq_eq]

end Tessellation

end Arbor
