import Arbor.Proofs.InertTriangles

namespace Arbor.Mesh

variable {α : Type} [Scalar α] {tolerance : α} {m : Mesh α} {kept later : List VertexId}
  {u v : VertexId} {vs : List VertexId}

def gap (m : Mesh α) (u v : VertexId) : α := (m.position u - m.position v).length

def keep (tolerance : α) (m : Mesh α) (kept : List VertexId) (v : VertexId) : List VertexId :=
  if (keptAt? tolerance m kept v).isSome then kept else kept ++ [v]

def clusters (tolerance : α) (m : Mesh α) (vs : List VertexId) : List VertexId :=
  vs.foldl (keep tolerance m) []

/-- The vertex that a corner at `v` comes to be: the first kept vertex that is close to it.
Closeness need not be transitive; what was decided at one corner is never revised. -/
def representative (tolerance : α) (m : Mesh α) (kept : List VertexId) (v : VertexId) :
    VertexId :=
  (keptAt? tolerance m kept v).getD v

theorem keptAt?_eq_some (h : keptAt? tolerance m kept v = some u) :
    u ∈ kept ∧ m.gap u v < tolerance :=
  ⟨List.mem_of_find?_eq_some h, by simpa [gap] using List.find?_some h⟩

theorem keptAt?_eq_none :
    keptAt? tolerance m kept v = none ↔ ∀ u ∈ kept, ¬ m.gap u v < tolerance := by
  simp [keptAt?, gap]

theorem keptAt?_mono (h : kept <+: later) (hu : keptAt? tolerance m kept v = some u) :
    keptAt? tolerance m later v = some u := by
  obtain ⟨rest, rfl⟩ := h
  rw [keptAt?, List.find?_append, show List.find? _ kept = some u from hu, Option.some_or]

theorem keep_of_some (h : keptAt? tolerance m kept v = some u) :
    keep tolerance m kept v = kept := by
  rw [keep, h]
  rfl

theorem keep_of_none (h : keptAt? tolerance m kept v = none) :
    keep tolerance m kept v = kept ++ [v] := by
  rw [keep, h]
  rfl

theorem prefix_keep (tolerance : α) (m : Mesh α) (kept : List VertexId) (v : VertexId) :
    kept <+: keep tolerance m kept v := by
  unfold keep
  split
  · exact List.prefix_refl kept
  · exact List.prefix_append kept [v]

theorem prefix_foldl_keep (tolerance : α) (m : Mesh α) (kept vs : List VertexId) :
    kept <+: vs.foldl (keep tolerance m) kept := by
  induction vs generalizing kept with
  | nil => exact List.prefix_refl kept
  | cons v vs ih => exact (prefix_keep tolerance m kept v).trans (ih _)

theorem mem_keep (h : u ∈ keep tolerance m kept v) : u ∈ kept ∨ u = v := by
  unfold keep at h
  split at h
  · exact .inl h
  · exact (List.mem_append.mp h).imp_right List.mem_singleton.mp

theorem mem_foldl_keep (h : u ∈ vs.foldl (keep tolerance m) kept) : u ∈ kept ∨ u ∈ vs := by
  induction vs generalizing kept with
  | nil => exact .inl h
  | cons v vs ih =>
      rcases ih h with h | h
      · exact (mem_keep h).imp_right fun he => List.mem_cons.mpr (.inl he)
      · exact .inr (List.mem_cons_of_mem _ h)

/-- A vertex that was met and is close to itself has a kept vertex close to it. -/
theorem keptAt?_keep (hself : m.gap v v < tolerance) :
    (keptAt? tolerance m (keep tolerance m kept v) v).isSome := by
  unfold keep
  split
  next h => exact h
  next =>
    refine List.find?_isSome.mpr ⟨v, List.mem_concat_self, decide_eq_true hself⟩

theorem keptAt?_isSome_mono (h : kept <+: later) (hv : (keptAt? tolerance m kept v).isSome) :
    keptAt? tolerance m later v = keptAt? tolerance m kept v := by
  obtain ⟨u, hu⟩ := Option.isSome_iff_exists.mp hv
  rw [keptAt?_mono h hu, hu]

/-- Kept vertices are close to themselves, and not close to one that was kept earlier. -/
structure Clustered (tolerance : α) (m : Mesh α) (kept : List VertexId) : Prop where
  apart : kept.Pairwise fun u v => ¬ m.gap u v < tolerance
  self : ∀ v ∈ kept, m.gap v v < tolerance

namespace Clustered

theorem nil : Clustered tolerance m [] := ⟨.nil, List.forall_mem_nil _⟩

theorem keptAt?_self (h : Clustered tolerance m kept) (hv : v ∈ kept) :
    keptAt? tolerance m kept v = some v := by
  obtain ⟨before, after, rfl⟩ := List.append_of_mem hv
  have hbefore : keptAt? tolerance m before v = none :=
    keptAt?_eq_none.mpr fun u hu =>
      (List.pairwise_append.mp h.apart).2.2 u hu v List.mem_cons_self
  rw [keptAt?, List.find?_append, show List.find? _ before = none from hbefore, Option.none_or]
  exact List.find?_cons_of_pos (decide_eq_true (h.self v hv))

theorem keep (h : Clustered tolerance m kept) (hself : m.gap v v < tolerance) :
    Clustered tolerance m (keep tolerance m kept v) := by
  unfold Mesh.keep
  split
  next => exact h
  next hnone =>
    have hapart := keptAt?_eq_none.mp (Option.not_isSome_iff_eq_none.mp hnone)
    constructor
    · refine List.pairwise_append.mpr ⟨h.apart, List.pairwise_singleton _ _, fun u hu w hw => ?_⟩
      exact List.mem_singleton.mp hw ▸ hapart u hu
    · intro w hw
      rcases List.mem_append.mp hw with hw | hw
      · exact h.self w hw
      · exact List.mem_singleton.mp hw ▸ hself

theorem foldl_keep (h : Clustered tolerance m kept) (hself : ∀ v ∈ vs, m.gap v v < tolerance) :
    Clustered tolerance m (vs.foldl (Mesh.keep tolerance m) kept) :=
  List.foldlRecOn vs _ h fun _ h v hv => h.keep (hself v hv)

theorem nodup (h : Clustered tolerance m kept) : kept.Nodup := by
  refine h.apart.imp_of_mem fun {u v} hu _ hapart => ?_
  rintro rfl
  exact hapart (h.self u hu)

theorem mono (h : Clustered tolerance m later) (hlonger : kept <+: later) :
    Clustered tolerance m kept :=
  ⟨h.apart.sublist hlonger.sublist, fun v hv => h.self v (hlonger.subset hv)⟩

theorem keep_representative (h : Clustered tolerance m later) (hself : m.gap v v < tolerance)
    (hlater : Mesh.keep tolerance m kept v <+: later) :
    Mesh.keep tolerance m kept (representative tolerance m later v) =
      Mesh.keep tolerance m kept v := by
  have hkept := h.mono hlater
  have hmet := keptAt?_isSome_mono hlater (keptAt?_keep hself)
  rw [representative, hmet]
  cases hv : keptAt? tolerance m kept v with
  | some u =>
      rw [keep_of_some hv] at hkept ⊢
      rw [hv, Option.getD_some, keep_of_some (hkept.keptAt?_self (keptAt?_eq_some hv).1)]
  | none =>
      rw [keep_of_none hv] at hkept ⊢
      rw [hkept.keptAt?_self List.mem_concat_self, Option.getD_some, keep_of_none hv]

/-- The corners that were met and what they come to be lead to the same kept vertices. -/
theorem foldl_keep_representative (h : Clustered tolerance m later)
    (hself : ∀ v ∈ vs, m.gap v v < tolerance)
    (hlater : vs.foldl (Mesh.keep tolerance m) kept = later) :
    (vs.map (representative tolerance m later)).foldl (Mesh.keep tolerance m) kept = later := by
  induction vs generalizing kept with
  | nil => exact hlater
  | cons v vs ih =>
      obtain ⟨hv, hvs⟩ := List.forall_mem_cons.mp hself
      have hlonger := hlater ▸ prefix_foldl_keep tolerance m (Mesh.keep tolerance m kept v) vs
      rw [List.map_cons, List.foldl_cons, h.keep_representative hv hlonger]
      exact ih hvs hlater

end Clustered

theorem clustered_clusters (hself : ∀ v ∈ vs, m.gap v v < tolerance) :
    Clustered tolerance m (clusters tolerance m vs) :=
  Clustered.nil.foldl_keep hself

theorem clusters_concat (tolerance : α) (m : Mesh α) (vs : List VertexId) (v : VertexId) :
    clusters tolerance m (vs ++ [v]) = keep tolerance m (clusters tolerance m vs) v := by
  rw [clusters, List.foldl_append, List.foldl_cons, List.foldl_nil, clusters]

theorem keptAt?_clusters (hself : ∀ v ∈ vs, m.gap v v < tolerance) (hv : v ∈ vs) :
    (keptAt? tolerance m (clusters tolerance m vs) v).isSome := by
  obtain ⟨before, after, rfl⟩ := List.append_of_mem hv
  have hlonger := prefix_foldl_keep tolerance m (keep tolerance m (clusters tolerance m before) v)
    after
  rw [clusters, List.foldl_append, List.foldl_cons]
  have hmet : (keptAt? tolerance m (keep tolerance m (clusters tolerance m before) v) v).isSome :=
    keptAt?_keep (hself v hv)
  rwa [← keptAt?_isSome_mono hlonger hmet] at hmet

def visits (m : Mesh α) : List (FaceId × Nat) :=
  m.faceIds.flatMap fun f => (List.range (m.corners f).length).map (f, ·)

def met (m : Mesh α) (visited : List (FaceId × Nat)) : List VertexId :=
  visited.filterMap fun x => (m.corners x.1)[x.2]?

def seen (m : Mesh α) (visited : List (FaceId × Nat)) (f : FaceId) : List VertexId :=
  m.met (visited.filter fun x => x.1 = f)

def visit (tolerance : α) (state : List VertexId × Mesh α) (x : FaceId × Nat) :
    List VertexId × Mesh α :=
  mergeCorner tolerance x.1 state x.2

section

variable {s : List VertexId × Mesh α} {f i : Nat}

theorem visit_of_none (h : (s.2.corners f)[i]? = none) :
    visit tolerance s (f, i) = s := by
  unfold visit mergeCorner
  dsimp only
  rw [h]

theorem visit_of_new (h : (s.2.corners f)[i]? = some v)
    (hkept : keptAt? tolerance s.2 s.1 v = none) :
    visit tolerance s (f, i) = (s.1 ++ [v], s.2) := by
  unfold visit mergeCorner
  dsimp only
  rw [h]
  dsimp only
  rw [hkept]

theorem visit_of_kept (h : (s.2.corners f)[i]? = some v)
    (hkept : keptAt? tolerance s.2 s.1 v = some v) :
    visit tolerance s (f, i) = s := by
  unfold visit mergeCorner
  dsimp only
  rw [h]
  dsimp only
  rw [hkept]
  exact if_pos rfl

theorem visit_of_close (h : (s.2.corners f)[i]? = some v)
    (hkept : keptAt? tolerance s.2 s.1 v = some u) (huv : u ≠ v) :
    visit tolerance s (f, i) = (s.1, s.2.relabel f v u) := by
  unfold visit mergeCorner
  dsimp only
  rw [h]
  dsimp only
  rw [hkept]
  exact if_neg huv

end

theorem mergeVertices_eq (tolerance : α) (m : Mesh α) :
    m.mergeVertices tolerance = m.visits.foldl (visit tolerance) ([], m) := by
  rw [visits, List.foldl_flatMap]
  refine (foldl_lift (F := id) (P := fun s : List VertexId × Mesh α =>
    ∀ g, (s.2.corners g).length = (m.corners g).length) (fun s f _ hs g => ?_)
    (fun s f _ hs => ?_) fun g => rfl).symm
  · exact length_mergeFace.trans (hs g)
  · rw [List.foldl_map, ← hs f]
    rfl

section Visits

omit [Scalar α]

variable {visited : List (FaceId × Nat)} {f g i : Nat}

theorem mem_seen : v ∈ m.seen visited f ↔ ∃ i, (f, i) ∈ visited ∧ (m.corners f)[i]? = some v := by
  simp only [seen, met, List.mem_filterMap, List.mem_filter, decide_eq_true_eq]
  constructor
  · rintro ⟨⟨_, i⟩, ⟨hi, rfl⟩, hv⟩
    exact ⟨i, hi, hv⟩
  · rintro ⟨i, hi, hv⟩
    exact ⟨(f, i), ⟨hi, rfl⟩, hv⟩

theorem seen_visits (hv : v ∈ m.corners f) : v ∈ m.seen m.visits f := by
  obtain ⟨i, hi⟩ := List.mem_iff_getElem?.mp hv
  refine mem_seen.mpr ⟨i, List.mem_flatMap.mpr ⟨f, ?_, ?_⟩, hi⟩
  · exact List.mem_range.mpr (lt_of_mem_corners hv)
  · exact List.mem_map_of_mem (List.mem_range.mpr (List.getElem?_eq_some_iff.mp hi).1)

theorem met_of_seen (h : v ∈ m.seen visited f) : v ∈ m.met visited := by
  obtain ⟨i, hi, hv⟩ := mem_seen.mp h
  exact List.mem_filterMap.mpr ⟨(f, i), hi, hv⟩

theorem corner_of_met (h : v ∈ m.met visited) : ∃ f, v ∈ m.corners f := by
  obtain ⟨x, -, hx⟩ := List.mem_filterMap.mp h
  exact ⟨x.1, List.mem_of_getElem? hx⟩

theorem mem_met_visits : v ∈ m.met m.visits ↔ ∃ f, v ∈ m.corners f :=
  ⟨corner_of_met, fun ⟨_, hv⟩ => met_of_seen (seen_visits hv)⟩

theorem met_concat (hv : (m.corners f)[i]? = some v) :
    m.met (visited ++ [(f, i)]) = m.met visited ++ [v] := by
  simp [met, hv]

theorem mem_seen_concat (hv : (m.corners f)[i]? = some v) :
    u ∈ m.seen (visited ++ [(f, i)]) g ↔ u ∈ m.seen visited g ∨ g = f ∧ u = v := by
  simp only [mem_seen, List.mem_append, List.mem_singleton, Prod.mk.injEq]
  constructor
  · rintro ⟨j, hj | ⟨rfl, rfl⟩, hu⟩
    · exact .inl ⟨j, hj, hu⟩
    · exact .inr ⟨rfl, Option.some.inj (hu.symm.trans hv)⟩
  · rintro (⟨j, hj, hu⟩ | ⟨rfl, rfl⟩)
    · exact ⟨j, .inl hj, hu⟩
    · exact ⟨i, .inr ⟨rfl, rfl⟩, hv⟩

end Visits

variable {visited : List (FaceId × Nat)} {state : List VertexId × Mesh α} {f g i : Nat}
  {w : VertexId}

/-- What a vertex of a face has come to be, if those of `done` were visited in this face. -/
def settled (tolerance : α) (m : Mesh α) (kept done : List VertexId) (v : VertexId) : VertexId :=
  if v ∈ done then representative tolerance m kept v else v

/-- The state once some corners were visited. -/
structure Progress (tolerance : α) (m : Mesh α) (visited : List (FaceId × Nat))
    (state : List VertexId × Mesh α) : Prop where
  kept : state.1 = clusters tolerance m (m.met visited)
  position : ∀ v, state.2.position v = m.position v
  corners : ∀ f, state.2.corners f =
    (m.corners f).map (settled tolerance m state.1 (m.seen visited f))

namespace Progress

theorem start : Progress tolerance m [] ([], m) :=
  ⟨rfl, fun _ => rfl, fun _ => (List.map_id'' (fun _ => if_neg List.not_mem_nil) _).symm⟩

theorem keptAt?_eq (h : Progress tolerance m visited state) (kept : List VertexId)
    (v : VertexId) : keptAt? tolerance state.2 kept v = keptAt? tolerance m kept v := by
  refine List.find?_congr fun u _ => ?_
  rw [h.position, h.position]

variable (h : Progress tolerance m visited state)
  (hself : ∀ f, ∀ v ∈ m.corners f, m.gap v v < tolerance)

include h hself

theorem clustered : Clustered tolerance m state.1 := by
  rw [h.kept]
  refine clustered_clusters fun v hv => ?_
  obtain ⟨f, hf⟩ := corner_of_met hv
  exact hself f v hf

theorem keptAt?_met (hv : v ∈ m.met visited) : (keptAt? tolerance m state.1 v).isSome := by
  rw [h.kept]
  refine keptAt?_clusters (fun u hu => ?_) hv
  obtain ⟨f, hf⟩ := corner_of_met hu
  exact hself f u hf

theorem settled_concat (hv : (m.corners f)[i]? = some v)
    (hw : w ∈ m.seen visited g ∨ ¬ (g = f ∧ w = v)) :
    settled tolerance m (keep tolerance m state.1 v) (m.seen (visited ++ [(f, i)]) g) w =
      settled tolerance m state.1 (m.seen visited g) w := by
  unfold settled
  by_cases hseen : w ∈ m.seen visited g
  · have hmet := h.keptAt?_met hself (met_of_seen hseen)
    rw [if_pos hseen, if_pos ((mem_seen_concat hv).mpr (.inl hseen)), representative,
      representative, keptAt?_isSome_mono (prefix_keep ..) hmet]
  · rw [if_neg hseen, if_neg]
    exact fun hmem => ((mem_seen_concat hv).mp hmem).elim hseen (hw.resolve_left hseen)

theorem concat (hv : (m.corners f)[i]? = some v)
    (hrepresents : v ∈ m.seen visited f ∨
      representative tolerance m (keep tolerance m state.1 v) v = v) :
    Progress tolerance m (visited ++ [(f, i)]) (keep tolerance m state.1 v, state.2) := by
  refine ⟨?_, h.position, fun g => ?_⟩
  · rw [met_concat hv, clusters_concat, ← h.kept]
  · rw [h.corners g]
    refine List.map_congr_left fun w _ => ?_
    by_cases hw : w ∈ m.seen visited g ∨ ¬ (g = f ∧ w = v)
    · exact (h.settled_concat hself hv hw).symm
    · obtain ⟨hseen, hvisited⟩ := not_or.mp hw
      obtain ⟨rfl, rfl⟩ := not_not.mp hvisited
      rw [settled, if_neg hseen, settled, if_pos ((mem_seen_concat hv).mpr (.inr ⟨rfl, rfl⟩)),
        hrepresents.resolve_left hseen]

theorem relabel (hv : (m.corners f)[i]? = some v) (hseen : v ∉ m.seen visited f)
    (hu : keptAt? tolerance m state.1 v = some u) (huv : u ≠ v) :
    Progress tolerance m (visited ++ [(f, i)]) (state.1, state.2.relabel f v u) := by
  have hkeep := keep_of_some hu
  have hnot : v ∉ state.1 := by
    intro hmem
    exact huv (Option.some.inj (hu.symm.trans ((h.clustered hself).keptAt?_self hmem)))
  refine ⟨?_, fun w => ?_, fun g => ?_⟩
  · rw [met_concat hv, clusters_concat, ← h.kept, hkeep]
  · rw [position_relabel, h.position]
  · rw [corners_relabel, h.corners, h.corners]
    split
    next hg =>
      subst hg
      rw [List.map_map]
      refine List.map_congr_left fun w _ => ?_
      rw [Function.comp_apply]
      by_cases hw : w = v
      · subst hw
        rw [settled, if_neg hseen, if_pos rfl, settled,
          if_pos ((mem_seen_concat hv).mpr (.inr ⟨rfl, rfl⟩)), representative, hu, Option.getD_some]
      · have hsettled := h.settled_concat hself (g := g) hv (.inr fun hvisited => hw hvisited.2)
        rw [hkeep] at hsettled
        rw [hsettled, if_neg]
        unfold settled
        split
        next hmem =>
          -- what was merged before is a kept vertex, and `v` is none
          obtain ⟨x, hx⟩ := Option.isSome_iff_exists.mp (h.keptAt?_met hself (met_of_seen hmem))
          rw [representative, hx, Option.getD_some]
          exact fun he => hnot (he ▸ (keptAt?_eq_some hx).1)
        next => exact hw
    next hg =>
      refine List.map_congr_left fun w _ => ?_
      have hsettled := h.settled_concat hself (w := w) hv (.inr fun hvisited => hg hvisited.1)
      rw [← hsettled, hkeep]

theorem visit (x : FaceId × Nat) :
    Progress tolerance m (visited ++ [x]) (visit tolerance state x) := by
  obtain ⟨f, i⟩ := x
  have hlabel : (state.2.corners f)[i]? =
      ((m.corners f)[i]?).map (settled tolerance m state.1 (m.seen visited f)) := by
    rw [h.corners, List.getElem?_map]
  cases hv : (m.corners f)[i]? with
  | none =>
      rw [hv, Option.map_none] at hlabel
      have hmet : m.met (visited ++ [(f, i)]) = m.met visited := by simp [met, hv]
      have hseen (g : FaceId) : m.seen (visited ++ [(f, i)]) g = m.seen visited g := by
        by_cases hg : f = g
        · subst hg
          simp [seen, met, hv]
        · simp [seen, hg]
      rw [visit_of_none hlabel]
      exact ⟨hmet.symm ▸ h.kept, h.position, fun g => (hseen g).symm ▸ h.corners g⟩
  | some v =>
      rw [hv, Option.map_some] at hlabel
      by_cases hseen : v ∈ m.seen visited f
      · obtain ⟨u, hu⟩ := Option.isSome_iff_exists.mp (h.keptAt?_met hself (met_of_seen hseen))
        rw [settled, if_pos hseen, representative, hu, Option.getD_some] at hlabel
        have hnext := h.concat hself hv (.inl hseen)
        have hkept := (h.clustered hself).keptAt?_self (keptAt?_eq_some hu).1
        rw [keep_of_some hu] at hnext
        rwa [visit_of_kept hlabel (h.keptAt?_eq _ _ ▸ hkept)]
      · rw [settled, if_neg hseen] at hlabel
        cases hu : keptAt? tolerance m state.1 v with
        | none =>
            rw [visit_of_new hlabel (h.keptAt?_eq _ _ ▸ hu), ← keep_of_none hu]
            refine h.concat hself hv (.inr ?_)
            have hclustered := (h.clustered hself).keep (hself f v (List.mem_of_getElem? hv))
            rw [keep_of_none hu] at hclustered ⊢
            rw [representative, hclustered.keptAt?_self List.mem_concat_self, Option.getD_some]
        | some u =>
            by_cases huv : u = v
            · subst huv
              rw [visit_of_kept hlabel (h.keptAt?_eq _ _ ▸ hu)]
              have hnext := h.concat hself hv (.inr (by
                rw [keep_of_some hu, representative, hu, Option.getD_some]))
              rwa [keep_of_some hu] at hnext
            · rw [visit_of_close hlabel (h.keptAt?_eq _ _ ▸ hu) huv]
              exact h.relabel hself hv hseen hu huv

end Progress

/-- However the corners are visited, each comes to be its representative when it is visited. -/
theorem progress_foldl (hself : ∀ f, ∀ v ∈ m.corners f, m.gap v v < tolerance)
    (visited : List (FaceId × Nat)) :
    Progress tolerance m visited (visited.foldl (visit tolerance) ([], m)) := by
  induction visited using List.reverseRecOn with
  | nil => exact .start
  | append_singleton visited x ih =>
      rw [List.foldl_append, List.foldl_cons, List.foldl_nil]
      exact ih.visit hself x

theorem foldl_visit_kept (hclustered : Clustered tolerance m later)
    (hlater : ∀ f, ∀ v ∈ m.corners f, v ∈ later) (visited : List (FaceId × Nat))
    (hlonger : (m.met visited).foldl (keep tolerance m) kept <+: later) :
    visited.foldl (visit tolerance) (kept, m) =
      ((m.met visited).foldl (keep tolerance m) kept, m) := by
  induction visited generalizing kept with
  | nil => rfl
  | cons x visited ih =>
      obtain ⟨f, i⟩ := x
      rw [List.foldl_cons]
      cases hv : (m.corners f)[i]? with
      | none =>
          have hmet : m.met ((f, i) :: visited) = m.met visited := by simp [met, hv]
          rw [hmet] at hlonger ⊢
          rw [visit_of_none (s := (kept, m)) hv, ih hlonger]
      | some v =>
          have hmet : m.met ((f, i) :: visited) = v :: m.met visited := by simp [met, hv]
          rw [hmet, List.foldl_cons] at hlonger ⊢
          have hself := hclustered.keptAt?_self (hlater f v (List.mem_of_getElem? hv))
          have hvisit : visit tolerance (kept, m) (f, i) = (keep tolerance m kept v, m) := by
            cases hu : keptAt? tolerance m kept v with
            | none => rw [visit_of_new (s := (kept, m)) hv hu, keep_of_none hu]
            | some u =>
                have hkept := (prefix_keep tolerance m kept v).trans
                  ((prefix_foldl_keep ..).trans hlonger)
                obtain rfl := Option.some.inj ((keptAt?_mono hkept hu).symm.trans hself)
                rw [visit_of_kept (s := (kept, m)) hv hu, keep_of_some hu]
          rw [hvisit, ih hlonger]

section Merging

variable (hself : ∀ f, ∀ v ∈ m.corners f, m.gap v v < tolerance)

include hself

theorem progress_mergeVertices : Progress tolerance m m.visits (m.mergeVertices tolerance) :=
  mergeVertices_eq tolerance m ▸ progress_foldl hself m.visits

theorem corners_mergeVertices (f : FaceId) : (m.mergeVertices tolerance).2.corners f =
    (m.corners f).map (representative tolerance m (m.mergeVertices tolerance).1) := by
  rw [(progress_mergeVertices hself).corners]
  exact List.map_congr_left fun v hv => if_pos (seen_visits hv)

theorem representative_kept (hv : v ∈ m.corners f) :
    let kept := (m.mergeVertices tolerance).1
    representative tolerance m kept v ∈ kept ∧
      m.gap (representative tolerance m kept v) v < tolerance := by
  intro kept
  have hmet := (progress_mergeVertices hself).keptAt?_met hself (mem_met_visits.mpr ⟨f, hv⟩)
  obtain ⟨u, hu⟩ := Option.isSome_iff_exists.mp hmet
  rw [representative, hu, Option.getD_some]
  exact keptAt?_eq_some hu

theorem representative_of_kept (hv : v ∈ (m.mergeVertices tolerance).1) :
    representative tolerance m (m.mergeVertices tolerance).1 v = v := by
  rw [representative, ((progress_mergeVertices hself).clustered hself).keptAt?_self hv,
    Option.getD_some]

theorem corner_of_kept (hv : v ∈ (m.mergeVertices tolerance).1) : ∃ f, v ∈ m.corners f := by
  rw [(progress_mergeVertices hself).kept] at hv
  exact corner_of_met ((mem_foldl_keep hv).resolve_left List.not_mem_nil)

theorem mem_mergeVertices : v ∈ (m.mergeVertices tolerance).1 ↔
    ∃ f, v ∈ (m.mergeVertices tolerance).2.corners f := by
  constructor
  · intro hv
    obtain ⟨f, hf⟩ := corner_of_kept hself hv
    refine ⟨f, ?_⟩
    rw [corners_mergeVertices hself]
    exact List.mem_map.mpr ⟨v, hf, representative_of_kept hself hv⟩
  · rintro ⟨f, hv⟩
    rw [corners_mergeVertices hself] at hv
    obtain ⟨w, hw, rfl⟩ := List.mem_map.mp hv
    exact (representative_kept hself hw).1

theorem clusters_merged : ((m.mergeVertices tolerance).2.met m.visits).foldl (keep tolerance m) [] =
    (m.mergeVertices tolerance).1 := by
  have hprogress := progress_mergeVertices hself
  have hmet : (m.mergeVertices tolerance).2.met m.visits =
      (m.met m.visits).map (representative tolerance m (m.mergeVertices tolerance).1) := by
    rw [met, met, List.map_filterMap]
    refine congrArg (List.filterMap · _) (funext fun x => ?_)
    rw [corners_mergeVertices hself, List.getElem?_map]
  rw [hmet]
  refine (hprogress.clustered hself).foldl_keep_representative (fun v hv => ?_) hprogress.kept.symm
  obtain ⟨f, hf⟩ := corner_of_met hv
  exact hself f v hf

theorem mergeVertices_again :
    (m.mergeVertices tolerance).2.mergeVertices tolerance = m.mergeVertices tolerance := by
  have hprogress := progress_mergeVertices hself
  have hgap : (m.mergeVertices tolerance).2.gap = m.gap := by
    funext u v
    rw [gap, gap, hprogress.position, hprogress.position]
  have hkeep : keep tolerance (m.mergeVertices tolerance).2 = keep tolerance m := by
    funext kept v
    rw [keep, keep, hprogress.keptAt?_eq]
  have hclustered : Clustered tolerance (m.mergeVertices tolerance).2
      (m.mergeVertices tolerance).1 := by
    obtain ⟨hapart, hclose⟩ := hprogress.clustered hself
    exact ⟨hgap ▸ hapart, hgap ▸ hclose⟩
  have hvisits : (m.mergeVertices tolerance).2.visits = m.visits := by
    simp only [visits, faceIds, size_faces_mergeVertices, length_mergeVertices]
  have hclusters := clusters_merged hself
  rw [mergeVertices_eq tolerance (m.mergeVertices tolerance).2, hvisits]
  rw [← hkeep] at hclusters
  rw [foldl_visit_kept hclustered (fun f v hv => (mem_mergeVertices hself).mpr ⟨f, hv⟩) m.visits
    (hclusters ▸ List.prefix_refl _), hclusters]

end Merging

omit [Scalar α] in
theorem positions_modifyVertex {change : Vertex α → Vertex α} (v : VertexId)
    (h : ∀ x, (change x).position = x.position) :
    (m.modifyVertex v change).vertices.map Vertex.position = m.vertices.map Vertex.position := by
  refine Array.ext_getElem? fun j => ?_
  rw [Array.getElem?_map, Array.getElem?_map, vertices_modifyVertex]
  split
  · rw [Option.map_map]
    exact congrArg (Option.map · _) (funext h)
  · rfl

omit [Scalar α] in
theorem positions_relabel (m : Mesh α) (f : FaceId) (old new : VertexId) :
    (m.relabel f old new).vertices.map Vertex.position = m.vertices.map Vertex.position := by
  have hregister : ((m.deregister f old).register f new).vertices.map Vertex.position =
      (m.deregister f old).vertices.map Vertex.position :=
    positions_modifyVertex new fun x => by split <;> rfl
  exact hregister.trans (positions_modifyVertex old fun _ => rfl)

theorem positions_mergeVertices (tolerance : α) (m : Mesh α) :
    (m.mergeVertices tolerance).2.vertices.map Vertex.position =
      m.vertices.map Vertex.position := by
  rw [mergeVertices_eq]
  refine List.foldlRecOn (motive := fun s : List VertexId × Mesh α =>
    s.2.vertices.map Vertex.position = m.vertices.map Vertex.position) _ _ rfl
    fun state h x _ => ?_
  unfold visit
  rcases mergeCorner_cases tolerance x.1 state x.2 with ⟨-, he⟩ | ⟨_, -, he⟩ | ⟨v, u, -, -, -, he⟩
  · rwa [he]
  · rwa [he]
  · rw [he, positions_relabel, h]

theorem lengths_mergeVertices (tolerance : α) (m : Mesh α) :
    (m.mergeVertices tolerance).2.faces.map List.length = m.faces.map List.length := by
  refine Array.ext (by simp [size_faces_mergeVertices]) fun f hf hf' => ?_
  rw [Array.size_map] at hf hf'
  have hlength := length_mergeVertices tolerance m f
  simp only [corners, Array.getElem?_eq_getElem hf, Array.getElem?_eq_getElem hf',
    Option.getD_some] at hlength
  rw [Array.getElem_map, Array.getElem_map, hlength]

/-- Merging is a clustering. The kept vertices are far from each other and are those that the merged
faces have as corners. Every corner has come to be a kept vertex close to it, which is the vertex
itself if it was kept. Points and the shape of faces stay, and merging again changes nothing. -/
theorem mergeVertices_clusters (hpos : 0 < tolerance)
    (hself : ∀ f, ∀ v ∈ m.corners f, m.gap v v = 0)
    (hnumbers : ∀ f g, ∀ u ∈ m.corners f, ∀ v ∈ m.corners g,
      m.gap u v < tolerance ∨ tolerance ≤ m.gap u v) :
    ∃ (kept : List VertexId) (merged : Mesh α), m.mergeVertices tolerance = (kept, merged) ∧
      kept.Nodup ∧ kept.Pairwise (fun u v => tolerance ≤ m.gap u v) ∧
      ((∀ u v, m.gap u v = m.gap v u) →
        ∀ u ∈ kept, ∀ v ∈ kept, u ≠ v → tolerance ≤ m.gap u v) ∧
      (∀ v, v ∈ kept ↔ ∃ f, v ∈ merged.corners f) ∧
      (∀ (f i : Nat) v, (m.corners f)[i]? = some v → ∃ u, (merged.corners f)[i]? = some u ∧
        u ∈ kept ∧ m.gap u v < tolerance ∧ (v ∈ kept → u = v)) ∧
      merged.vertices.map Vertex.position = m.vertices.map Vertex.position ∧
      merged.faces.map List.length = m.faces.map List.length ∧
      merged.mergeVertices tolerance = (kept, merged) := by
  have hclose : ∀ f, ∀ v ∈ m.corners f, m.gap v v < tolerance :=
    fun f v hv => (hself f v hv).symm ▸ hpos
  have hclustered := (progress_mergeVertices hclose).clustered hclose
  have hapart : (m.mergeVertices tolerance).1.Pairwise fun u v => tolerance ≤ m.gap u v := by
    refine hclustered.apart.imp_of_mem fun {u v} hu hv hfar => ?_
    obtain ⟨f, hf⟩ := corner_of_kept hclose hu
    obtain ⟨g, hg⟩ := corner_of_kept hclose hv
    exact (hnumbers f g u hf v hg).resolve_left hfar
  refine ⟨(m.mergeVertices tolerance).1, (m.mergeVertices tolerance).2, rfl, hclustered.nodup,
    hapart, fun hsymm u hu v hv huv => ?_, fun v => mem_mergeVertices hclose, fun f i v hv => ?_,
    positions_mergeVertices tolerance m, lengths_mergeVertices tolerance m,
    mergeVertices_again hclose⟩
  · have : Std.Symm fun u v => tolerance ≤ m.gap u v := ⟨fun u v h => hsymm u v ▸ h⟩
    exact hapart.forall hu hv huv
  · have hmem := List.mem_of_getElem? hv
    obtain ⟨hkept, hnear⟩ := representative_kept hclose hmem
    refine ⟨_, ?_, hkept, hnear, representative_of_kept hclose⟩
    rw [corners_mergeVertices hclose, List.getElem?_map, hv, Option.map_some]

def unitSquare : List (List (Vec3 Float)) :=
  [[⟨0, 0, 0⟩, ⟨1, 0, 0⟩, ⟨1, 1, 0⟩], [⟨0, 0, 0⟩, ⟨1, 1, 0⟩, ⟨0, 1, 0⟩]]

theorem mergeVertices_clusters_unitSquare :
    ∃ merged : Mesh Float, (ofPolygons unitSquare).mergeVertices 1e-8 = ([0, 1, 2, 5], merged) ∧
      merged.faces = #[[0, 1, 2], [0, 2, 5]] ∧
      merged.mergeVertices 1e-8 = ([0, 1, 2, 5], merged) := by
  have hsix : ∀ f, ∀ v ∈ (ofPolygons unitSquare).corners f, v ∈ List.range 6 := fun f v hv =>
    List.mem_range.mpr ((ofPolygons_faces (by decide)).1.existing f v hv)
  have hself : ∀ v ∈ List.range 6, (ofPolygons unitSquare).gap v v = 0 := by decide +kernel
  have hnumbers : ∀ u ∈ List.range 6, ∀ v ∈ List.range 6,
      (ofPolygons unitSquare).gap u v < 1e-8 ∨ 1e-8 ≤ (ofPolygons unitSquare).gap u v := by
    decide +kernel
  obtain ⟨kept, merged, hmerged, -, -, -, -, -, -, -, hagain⟩ :=
    mergeVertices_clusters (by decide +kernel) (fun f v hv => hself v (hsix f v hv))
      fun f g u hu v hv => hnumbers u (hsix f u hu) v (hsix g v hv)
  have hresult : ((ofPolygons unitSquare).mergeVertices 1e-8).1 = [0, 1, 2, 5] ∧
      ((ofPolygons unitSquare).mergeVertices 1e-8).2.faces = #[[0, 1, 2], [0, 2, 5]] := by
    decide +kernel
  rw [hmerged] at hresult
  obtain ⟨rfl, hfaces⟩ := hresult
  exact ⟨merged, hmerged, hfaces, hagain⟩

end Arbor.Mesh
