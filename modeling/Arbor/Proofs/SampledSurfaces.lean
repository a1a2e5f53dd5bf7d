import Arbor.Proofs.RealVectors
import Arbor.Proofs.ConePoints

namespace Arbor

namespace Triangle

variable {t : Triangle ℝ} {p : Vec3 ℝ}

theorem area_nonneg (t : Triangle ℝ) : 0 ≤ t.area :=
  mul_nonneg (by norm_num) (Vec3.length_nonneg _)

def Mixes (t : Triangle ℝ) (p : Vec3 ℝ) : Prop :=
  ∃ u v w : ℝ, 0 ≤ u ∧ 0 ≤ v ∧ 0 ≤ w ∧ u + v + w = 1 ∧ p = t.a * u + t.b * v + t.c * w

theorem Mixes.contains {box : Box ℝ} (h : t.Mixes p)
    (hcorners : ∀ q ∈ t.toList, box.contains q 0 = true) : box.contains p 0 = true := by
  obtain ⟨u, v, w, hu, hv, hw, hsum, rfl⟩ := h
  have ha := hcorners t.a (by simp [toList])
  have hb := hcorners t.b (by simp [toList])
  have hc := hcorners t.c (by simp [toList])
  exact Box.contains_mix ha hb hc hu hv hw hsum

end Triangle

namespace Tessellation

theorem length_runningArea (total : ℝ) (ts : List (Triangle ℝ)) :
    (runningArea total ts).length = ts.length := by
  induction ts generalizing total with
  | nil => rfl
  | cons t ts ih => rw [runningArea, List.length_cons, ih, List.length_cons]

theorem sorted_runningArea (total : ℝ) (ts : List (Triangle ℝ)) :
    (∀ a ∈ runningArea total ts, total ≤ a) ∧ (runningArea total ts).Pairwise (· ≤ ·) := by
  induction ts generalizing total with
  | nil => exact ⟨List.forall_mem_nil _, .nil⟩
  | cons t ts ih =>
      obtain ⟨hle, hsorted⟩ := ih (total + t.area)
      have hstep : total ≤ total + t.area := le_add_of_nonneg_right t.area_nonneg
      refine ⟨List.forall_mem_cons.mpr ⟨hstep, fun a ha => hstep.trans (hle a ha)⟩, ?_⟩
      exact List.pairwise_cons.mpr ⟨hle, hsorted⟩

/-- The sums before the place `i` are at most `target`, and the sum there is greater. -/
structure Picks (sums : List ℝ) (target : ℝ) (i : Nat) : Prop where
  before : ∀ j < i, ∀ a, sums[j]? = some a → a ≤ target
  here : ∃ a, sums[i]? = some a ∧ target < a

theorem Picks.lt_length {sums : List ℝ} {target : ℝ} {i : Nat} (h : Picks sums target i) :
    i < sums.length := by
  obtain ⟨a, ha, -⟩ := h.here
  exact (List.getElem?_eq_some_iff.mp ha).1

theorem picks_takeWhile {sums : List ℝ} {target start : ℝ} (hstart : start ≤ target)
    (hlast : target < sums.getLastD start) :
    Picks sums target (sums.takeWhile fun a => a ≤ target).length := by
  induction sums generalizing start with
  | nil => exact absurd hlast hstart.not_gt
  | cons a sums ih =>
      by_cases ha : a ≤ target
      · have hrest := ih ha (List.getLastD_cons .. ▸ hlast)
        simp only [List.takeWhile_cons, ha, decide_true, if_true, List.length_cons]
        refine ⟨fun j hj b hb => ?_, hrest.here⟩
        cases j with
        | zero => exact Option.some.inj hb ▸ ha
        | succ j => exact hrest.before j (Nat.lt_of_succ_lt_succ hj) b hb
      · simp only [List.takeWhile_cons, ha, decide_false, Bool.false_eq_true, if_false]
        exact ⟨nofun, a, rfl, not_le.mp ha⟩

section

variable {facets : List (Triangle ℝ)}

theorem picks_facetAt {target : ℝ} (hlow : 0 ≤ target) (hhigh : target < (ofFacets facets).area) :
    (ofFacets facets).facetAt target < facets.length ∧
      Picks (ofFacets facets).cumulativeArea target ((ofFacets facets).facetAt target) := by
  have hpicks : Picks (runningArea 0 facets) target _ := picks_takeWhile hlow hhigh
  have hlt := hpicks.lt_length
  rw [length_runningArea] at hlt
  have hindex : (ofFacets facets).facetAt target =
      ((runningArea 0 facets).takeWhile fun a => a ≤ target).length :=
    Nat.min_eq_left (Nat.le_sub_one_of_lt hlt)
  rw [hindex]
  exact ⟨hlt, hpicks⟩

theorem mixes_pointOnSurface (hne : facets ≠ []) (g : Generator) :
    let s := ofFacets facets
    (facets.getD (s.facetAt ((g.uniform (α := ℝ)).1 * s.area)) ⟨0, 0, 0⟩).Mixes
      (s.pointOnSurface.run g).1 := by
  intro s
  have hnotEmpty : s.isEmpty = false := by simpa [s, isEmpty, ofFacets] using hne
  obtain ⟨hu, hu'⟩ := (g.advance 1).uniform_mem
  obtain ⟨hq, hq'⟩ := (g.advance 2).uniform_mem
  set u : ℝ := ((g.advance 1).uniform (α := ℝ)).1
  set q : ℝ := ((g.advance 2).uniform (α := ℝ)).1
  set t := facets.getD (s.facetAt ((g.uniform (α := ℝ)).1 * s.area)) ⟨0, 0, 0⟩ with ht
  have hpoint : (s.pointOnSurface.run g).1 =
      t.a * (1 - √u) + t.b * (√u * (1 - q)) + t.c * (√u * q) := by
    unfold pointOnSurface
    rw [hnotEmpty]
    rfl
  have hroot : √u ≤ 1 := Real.sqrt_le_one.mpr hu'.le
  have hroot' := Real.sqrt_nonneg u
  refine ⟨1 - √u, √u * (1 - q), √u * q, sub_nonneg.mpr hroot,
    mul_nonneg hroot' (sub_nonneg.mpr hq'.le), mul_nonneg hroot' hq, by ring, hpoint⟩

theorem bounds_contains {t : Triangle ℝ} (ht : t ∈ facets) :
    ∀ p ∈ t.toList, (ofFacets facets).bounds.contains p 0 = true := by
  intro p hp
  have hmem : p ∈ corners facets := List.mem_flatMap.mpr ⟨t, ht, hp⟩
  obtain ⟨box, hbox, hcontains⟩ := Box.contains_of_mem hmem
  have hbounds : (ofFacets facets).bounds = box := by rw [ofFacets, hbox, Option.getD_some]
  exact hbounds ▸ hcontains p hmem

end

end Tessellation

namespace Shape

/-- Solids described by formulas, without negative dimensions, and what is clear of their faces. A
frustum is one that extends along a direction. -/
inductive Round : Shape ℝ → (Vec3 ℝ → Clearances ℝ) → Prop
  | orb (s : Orb ℝ) (hradius : 0 ≤ s.radius) : Round (.orb s) s.clearances
  | tube (s : Tube ℝ) (hradius : 0 ≤ s.radius) (hheight : 0 ≤ s.halfHeight) :
      Round (.tube s) s.clearances
  | dome (s : Dome ℝ) (hradius : 0 ≤ s.radius) : Round (.dome s) s.clearances
  | frustum (start direction : Vec3 ℝ) (length startRadius endRadius : ℝ)
      (hdirection : direction ≠ 0) (hlength : 0 ≤ length) (hstart : 0 ≤ startRadius)
      (hend : 0 ≤ endRadius) :
      Round (.frustum (.along start direction length startRadius endRadius))
        (Frustum.along start direction length startRadius endRadius).clearances

theorem Round.sure_onSurface {s : Shape ℝ} {cs : Vec3 ℝ → Clearances ℝ} (h : s.Round cs) :
    s.pointOnSurface.Sure fun p => p.OnSurface cs s.bounds := by
  cases h with
  | orb s hradius => exact Orb.sure_onSurface hradius
  | tube s hradius hheight => exact Tube.sure_onSurface hradius hheight
  | dome s hradius => exact Dome.sure_onSurface hradius
  | frustum start direction length r q hdirection hlength hr hq =>
      exact (Frustum.proper_along start hdirection hlength hr hq).sure_onSurface

theorem Round.location_eq {s : Shape ℝ} {cs : Vec3 ℝ → Clearances ℝ} (h : s.Round cs)
    (p : Vec3 ℝ) : s.location p = (cs p).location := by
  cases h with
  | orb | tube | dome | frustum => rfl

/-- Points drawn from round solids have nothing clear of the nearest face. Points drawn from facets
with an area belong to the facet on whose share of the running areas the draw falls. All of them lie
within the bounds. -/
theorem points_on_surface :
    (∀ (s : Shape ℝ) (cs : Vec3 ℝ → Clearances ℝ), s.Round cs → ∀ g : Generator,
      let p := (s.pointOnSurface.run g).1
      Scalar.least (cs p) = 0 ∧ s.location p = .surface ∧ s.bounds.contains p 0 = true) ∧
    ∀ facets : List (Triangle ℝ), 0 < (Tessellation.ofFacets facets).area → ∀ g : Generator,
      let s := Tessellation.ofFacets facets
      let target := (g.uniform (α := ℝ)).1 * s.area
      let p := (s.pointOnSurface.run g).1
      s.cumulativeArea.Pairwise (· ≤ ·) ∧
      Tessellation.Picks s.cumulativeArea target (s.facetAt target) ∧
      (∃ t, facets[s.facetAt target]? = some t ∧ t.Mixes p) ∧ s.bounds.contains p 0 = true := by
  constructor
  · intro s cs h g p
    obtain ⟨hleast, hbounds⟩ := h.sure_onSurface g
    exact ⟨hleast, (h.location_eq p).trans (Clearances.location_of_least hleast), hbounds⟩
  · intro facets harea g s target p
    obtain ⟨hu, hu'⟩ := g.uniform_mem
    have htarget : target < s.area := mul_lt_of_lt_one_left harea hu'
    obtain ⟨hlt, hpicks⟩ := Tessellation.picks_facetAt (mul_nonneg hu harea.le) htarget
    obtain ⟨t, ht⟩ : ∃ t, facets[s.facetAt target]? = some t := ⟨_, List.getElem?_eq_getElem hlt⟩
    have hne : facets ≠ [] := List.ne_nil_of_length_pos (Nat.zero_lt_of_lt hlt)
    have hmixes : (facets.getD (s.facetAt target) ⟨0, 0, 0⟩).Mixes p :=
      Tessellation.mixes_pointOnSurface hne g
    rw [List.getD_eq_getElem?_getD, ht, Option.getD_some] at hmixes
    refine ⟨(Tessellation.sorted_runningArea 0 facets).2, hpicks, ⟨t, ht, hmixes⟩, ?_⟩
    exact hmixes.contains (Tessellation.bounds_contains (List.mem_of_getElem? ht))

def facet : Triangle ℝ := ⟨⟨0, 0, 0⟩, ⟨1, 0, 0⟩, ⟨0, 1, 0⟩⟩

theorem area_facet : (Tessellation.ofFacets [facet]).area = 1 / 2 := by
  have hlength : ((facet.c - facet.b).cross (facet.a - facet.b)).length = 1 :=
    Vec3.length_eq zero_le_one (by norm_num [facet, Vec3.lengthSq_eq])
  change 0 + 0.5 * ((facet.c - facet.b).cross (facet.a - facet.b)).length = (1 : ℝ) / 2
  rw [hlength]
  norm_num

theorem points_on_surface_cone :
    let g : Generator := .ofSeed 3
    let p := ((frustum cone).pointOnSurface.run g).1
    let q := ((Tessellation.ofFacets [facet]).pointOnSurface.run g).1
    (frustum cone).Round cone.clearances ∧ (frustum cone).location p = .surface ∧
      0 < (Tessellation.ofFacets [facet]).area ∧ facet.Mixes q := by
  intro g p q
  have hcone : (frustum cone).Round cone.clearances :=
    .frustum 0 _ 4 3 0 cone_direction_ne (by norm_num) (by norm_num) le_rfl
  have harea : 0 < (Tessellation.ofFacets [facet]).area := by norm_num [area_facet]
  obtain ⟨hround, htessellated⟩ := points_on_surface
  obtain ⟨-, -, ⟨t, ht, hmixes⟩, -⟩ := htessellated [facet] harea g
  obtain rfl : t = facet := List.mem_singleton.mp (List.mem_of_getElem? ht)
  exact ⟨hcone, (hround _ _ hcone g).2.1, harea, hmixes⟩

end Shape

end Arbor
