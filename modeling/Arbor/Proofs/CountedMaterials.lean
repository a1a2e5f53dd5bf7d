import Mathlib.Data.String.Basic
import Arbor.Proofs.PlacedVolumes

namespace Arbor

variable {α : Type} [Scalar α]

namespace MaterialSummary

omit [Scalar α] in
theorem volumes_eq (s : MaterialSummary α) :
    s.volumes = (s.totals.map MaterialTotal.volumes).sum := by
  have h (ts : List (MaterialTotal α)) (n : Nat) :
      ts.foldl (fun n t => n + t.volumes) n = n + (ts.map MaterialTotal.volumes).sum := by
    induction ts generalizing n with
    | nil => rfl
    | cons t ts ih => rw [List.foldl_cons, ih, List.map_cons, List.sum_cons, Nat.add_assoc]
  rw [volumes, h, Nat.zero_add]

def countOf (name : String) (ts : List (MaterialTotal α)) : Nat :=
  ((ts.filter fun t => t.material = name).map MaterialTotal.volumes).sum

variable (material : String) (area : α) (ts : List (MaterialTotal α))

theorem sum_tally : ((tally material area ts).map MaterialTotal.volumes).sum =
    (ts.map MaterialTotal.volumes).sum + 1 := by
  induction ts with
  | nil => rfl
  | cons t ts ih =>
      rw [tally]
      split
      · simp [Nat.add_right_comm]
      · split
        · simp [Nat.add_comm]
        · simp [ih, Nat.add_assoc]

omit [Scalar α] in
theorem countOf_cons (name : String) (t : MaterialTotal α) : countOf name (t :: ts) =
    (if t.material = name then t.volumes else 0) + countOf name ts := by
  by_cases h : t.material = name <;> simp [countOf, h]

theorem countOf_tally (name : String) :
    countOf name (tally material area ts) = countOf name ts + if material = name then 1 else 0 := by
  induction ts with
  | nil => by_cases h : material = name <;> simp [tally, countOf, h]
  | cons t ts ih =>
      rw [tally]
      split
      next heq =>
        simp only [countOf_cons, heq]
        split <;> omega
      next =>
        split
        · rw [countOf_cons, Nat.add_comm]
        · rw [countOf_cons, countOf_cons, ih, Nat.add_assoc]

theorem mem_tally (name : String) :
    name ∈ (tally material area ts).map MaterialTotal.material ↔
      name = material ∨ name ∈ ts.map MaterialTotal.material := by
  induction ts with
  | nil => simp [tally]
  | cons t ts ih =>
      rw [tally]
      split
      next heq => simp [heq]
      next =>
        split
        · simp
        · rw [List.map_cons, List.mem_cons, ih, List.map_cons, List.mem_cons]
          tauto

theorem ordered_tally (h : (ts.map MaterialTotal.material).Pairwise (· < ·)) :
    ((tally material area ts).map MaterialTotal.material).Pairwise (· < ·) := by
  induction ts with
  | nil => exact List.pairwise_singleton _ _
  | cons t ts ih =>
      obtain ⟨hbelow, hrest⟩ := List.pairwise_cons.mp h
      rw [tally]
      split
      next => exact h
      next hne =>
        split
        next hlt =>
          refine List.pairwise_cons.mpr ⟨fun name hname => ?_, h⟩
          rcases List.mem_cons.mp hname with rfl | hname
          · exact hlt
          · exact lt_trans hlt (hbelow name hname)
        next hnlt =>
          refine List.pairwise_cons.mpr ⟨fun name hname => ?_, ih hrest⟩
          rcases (mem_tally material area ts name).mp hname with rfl | hname
          · exact lt_of_le_of_ne (not_lt.mp hnlt) hne
          · exact hbelow name hname

omit [Scalar α] in
theorem countOf_of_mem {ts : List (MaterialTotal α)}
    (h : (ts.map MaterialTotal.material).Pairwise (· < ·)) {t : MaterialTotal α} (ht : t ∈ ts) :
    countOf t.material ts = t.volumes := by
  induction ts with
  | nil => cases ht
  | cons u ts ih =>
      obtain ⟨hbelow, hrest⟩ := List.pairwise_cons.mp h
      rw [countOf_cons]
      rcases List.mem_cons.mp ht with rfl | ht
      · have hnone : countOf t.material ts = 0 := by
          rw [countOf, List.filter_eq_nil_iff.mpr, List.map_nil, List.sum_nil]
          intro u hu
          simpa using (hbelow u.material (List.mem_map_of_mem hu)).ne'
        rw [if_pos rfl, hnone, Nat.add_zero]
      · rw [if_neg (hbelow t.material (List.mem_map_of_mem ht)).ne, ih hrest ht, Nat.zero_add]

structure Counts (s : MaterialSummary α) (vs : List (Volume α)) : Prop where
  ordered : (s.totals.map MaterialTotal.material).Pairwise (· < ·)
  counted : ∀ name, countOf name s.totals = vs.countP fun v => v.material = name
  named : ∀ name, name ∈ s.totals.map MaterialTotal.material ↔ name ∈ vs.map Volume.material
  total : s.volumes = vs.length
  facets : s.facets = (vs.map fun v => facetCount v.shape).sum

namespace Counts

variable {s s' : MaterialSummary α} {vs ws : List (Volume α)}

omit [Scalar α] in
theorem empty : Counts ({} : MaterialSummary α) [] :=
  ⟨.nil, fun _ => rfl, fun _ => .rfl, rfl, rfl⟩

omit [Scalar α] in
theorem perm (h : Counts s vs) (hperm : vs.Perm ws) : Counts s ws := by
  refine ⟨h.ordered, fun name => ?_, fun name => ?_, ?_, ?_⟩
  · rw [h.counted, hperm.countP_eq]
  · rw [h.named, (hperm.map Volume.material).mem_iff]
  · rw [h.total, hperm.length_eq]
  · rw [h.facets, (hperm.map _).sum_nat]

theorem place (h : Counts s vs) {v : Volume α} {parent : Option Nat} {handle : Nat}
    (hrun : (MaterialSummary.place v parent).run s = (handle, s')) :
    Counts s' (vs ++ [v]) ∧ handle = vs.length := by
  have hplaced : (MaterialSummary.place v parent).run s =
      (volumes ⟨tally v.material v.shape.area s.totals, s.facets + facetCount v.shape⟩ - 1,
        ⟨tally v.material v.shape.area s.totals, s.facets + facetCount v.shape⟩) := rfl
  obtain ⟨rfl, rfl⟩ := Prod.mk.inj (hplaced.symm.trans hrun)
  have htotal := h.total
  rw [volumes_eq] at htotal
  have hsum := sum_tally v.material v.shape.area s.totals
  refine ⟨⟨ordered_tally _ _ _ h.ordered, fun name => ?_, fun name => ?_, ?_, ?_⟩, ?_⟩
  · rw [countOf_tally, h.counted, List.countP_append, List.countP_singleton]
    simp
  · rw [mem_tally, h.named, List.map_append, List.mem_append, List.map_singleton,
      List.mem_singleton, or_comm]
  · rw [volumes_eq, hsum, htotal, List.length_append, List.length_singleton]
  · rw [h.facets, List.map_append, List.sum_append]
    simp
  · rw [volumes_eq, hsum, htotal, Nat.add_sub_cancel]

theorem placed {log : List (Placing α Nat)} (h : Counts s vs)
    (hlog : Placed MaterialSummary.place s log s') :
    Counts s' (vs ++ log.map Placing.volume) ∧
      log.map Placing.handle = List.range' vs.length log.length := by
  induction hlog generalizing vs with
  | nil => exact ⟨by simpa using h, rfl⟩
  | cons s s' s'' c log here _ ih =>
      obtain ⟨hnext, hhandle⟩ := h.place here
      obtain ⟨hcounts, hhandles⟩ := ih hnext
      constructor
      · simpa using hcounts
      · rw [List.map_cons, hhandles, hhandle, List.length_append, List.length_singleton,
          List.length_cons, List.range'_succ]

end Counts

/-- For each material there is one total, which is the number of its volumes. Solids that are not
made of facets have none. -/
structure Summarizes (s : MaterialSummary α) (vs : List (Volume α)) : Prop where
  ordered : (s.totals.map MaterialTotal.material).Pairwise (· < ·)
  named : ∀ name, name ∈ s.totals.map MaterialTotal.material ↔ name ∈ vs.map Volume.material
  counted : ∀ t ∈ s.totals, t.volumes = vs.countP fun v => v.material = t.material
  facets : s.facets = (vs.map fun v => match v.shape with
    | .tessellated solid => solid.facets.length
    | .orb _ | .tube _ | .dome _ | .frustum _ => 0).sum

omit [Scalar α] in
theorem Counts.summarizes {s : MaterialSummary α} {vs : List (Volume α)} (h : Counts s vs) :
    Summarizes s vs :=
by
  refine ⟨h.ordered, h.named, fun t ht => ?_, h.facets.trans (congrArg List.sum ?_)⟩
  · rw [← countOf_of_mem h.ordered ht, h.counted]
  · refine List.map_congr_left fun v _ => ?_
    cases v.shape <;> rfl

end MaterialSummary

theorem Structure.summary_counts (s : Structure α) :
    s.summary.2.Counts s.world.walk ∧ s.summary.1.Perm (List.range s.world.walk.length) := by
  obtain ⟨log, h⟩ := s.exists_emission MaterialSummary.place {}
  obtain ⟨hcounts, hhandles⟩ := MaterialSummary.Counts.empty.placed h.placed
  have hlength : log.length = s.world.walk.length := by
    rw [← h.perm_walk.length_eq, List.length_map]
  refine ⟨hcounts.perm h.perm_walk, ?_⟩
  have hanswered := h.answered
  rwa [hhandles, List.length_nil, hlength, ← List.range_eq_range'] at hanswered

/-- A walk through a world ends and lists what is nested in it, by depth. Every consumer is called
once for each of these volumes, behind the one it is in and with its handle, and the handles are
answered, that of the world in front. The summary of materials counts these volumes. -/
theorem emission_of_walk (s : Structure α) :
    (Volume.lookTimes s.world.walk.length ([s.world], 0) =
        some (s.world.walk, s.world.walk.length) ∧
      ∃ ps, Volume.Lists (List.Shortlex (· < ·)) s.world ps s.world.walk) ∧
    (∀ (σ η : Type) (place : Volume α → Option η → StateM σ η) (state : σ),
      ∃ log, (s.emit (watch place)).run (state, []) =
          (((s.emit place).run state).1, ((s.emit place).run state).2, log) ∧
        s.Emission place state log ((s.emit place).run state) ∧
        (log.map Placing.volume).Perm s.world.walk) ∧
    s.summary.1.Perm (List.range s.world.walk.length) ∧ s.summary.2.Summarizes s.world.walk := by
  refine ⟨⟨s.world.lookTimes_walk, s.world.lists_walk⟩, fun σ η place state => ?_, ?_, ?_⟩
  · obtain ⟨log, hwatch, h⟩ := s.emission_watched place state
    exact ⟨log, hwatch, h, h.perm_walk⟩
  · exact s.summary_counts.2
  · exact s.summary_counts.1.summarizes

/-- A leaf of two facets, with a layer of one facet in it, beside a trunk that has none. -/
theorem emission_of_walk_leaf :
    let facet : Triangle Float := ⟨⟨0, 0, 0⟩, ⟨1, 0, 0⟩, ⟨0, 1, 0⟩⟩
    let layer : Volume Float := ⟨"LeafFront", "glass", .tessellated (.ofFacets [facet]), []⟩
    let leaf : Volume Float :=
      ⟨"LeafEnvelope", "air", .tessellated (.ofFacets [facet, facet]), [layer]⟩
    let trunk : Volume Float := ⟨"Trunk", "wood", .tube ⟨0, 1, 1⟩, []⟩
    let s : Structure Float := .ofWorld ⟨"World", "air", .orb ⟨0, 9⟩, [trunk, leaf]⟩
    s.world.walk = [s.world, trunk, leaf, layer] ∧ s.summary.1.Perm [0, 1, 2, 3] ∧
      s.summary.2.facets = 3 ∧ ∀ t ∈ s.summary.2.totals, t.material = "air" → t.volumes = 2 := by
  intro facet layer leaf trunk s
  have hwalk : s.world.walk = [s.world, trunk, leaf, layer] := rfl
  obtain ⟨-, -, hhandles, hsummary⟩ := emission_of_walk s
  rw [hwalk] at hhandles hsummary
  refine ⟨hwalk, hhandles, hsummary.facets, fun t ht hair => ?_⟩
  rw [hsummary.counted t ht, hair]
  rfl

end Arbor
