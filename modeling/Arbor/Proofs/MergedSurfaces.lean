import Arbor.Mesh.Shell
import Arbor.Proofs.ReverseIndex

namespace Arbor

/-- What a step reaches and all steps keep holds after any steps with that one among them. -/
theorem foldl_of_mem {σ ι : Type} {P : σ → Prop} {step : σ → ι → σ} {x : ι} {xs : List ι}
    (hreach : ∀ s, P (step s x)) (hkeep : ∀ s y, P s → P (step s y)) (hx : x ∈ xs) (s : σ) :
    P (xs.foldl step s) := by
  induction xs generalizing s with
  | nil => cases hx
  | cons y ys ih =>
      rcases List.mem_cons.mp hx with rfl | hx
      · exact List.foldlRecOn ys step (hreach s) fun s h y _ => hkeep s y h
      · exact ih hx _

namespace Mesh

variable {α : Type} [Scalar α] {tolerance : α} {state : List VertexId × Mesh α}
  {f g i j : Nat}

def Visited (g i : Nat) (state : List VertexId × Mesh α) : Prop :=
  ∀ v, (state.2.corners g)[i]? = some v → v ∈ state.1

theorem visited_corner : Visited f j (mergeCorner tolerance f state j) := by
  intro v hv
  rcases mergeCorner_cases tolerance f state j with
    ⟨hkept, he⟩ | ⟨w, hw, he⟩ | ⟨w, u, hw, hu, -, he⟩
  · rw [he] at hv ⊢
    exact hkept v hv
  · rw [he] at hv ⊢
    obtain rfl : w = v := Option.some.inj (hw.symm.trans hv)
    exact List.mem_concat_self
  · rw [he] at hv ⊢
    rw [corners_relabel, if_pos rfl, List.getElem?_map, hw, Option.map_some, if_pos rfl] at hv
    exact Option.some.inj hv ▸ hu

theorem Visited.corner (h : Visited g i state) :
    Visited g i (mergeCorner tolerance f state j) := by
  intro v hv
  rcases mergeCorner_cases tolerance f state j with
    ⟨-, he⟩ | ⟨w, -, he⟩ | ⟨w, u, -, hu, -, he⟩
  · rw [he] at hv ⊢
    exact h v hv
  · rw [he] at hv ⊢
    exact List.mem_append_left _ (h v hv)
  · rw [he] at hv ⊢
    rw [corners_relabel] at hv
    split at hv
    next hg =>
      subst hg
      obtain ⟨x, hx, rfl⟩ := Option.map_eq_some_iff.mp (List.getElem?_map ▸ hv)
      split
      · exact hu
      · exact h x hx
    next => exact h v hv

theorem length_mergeCorner :
    ((mergeCorner tolerance f state j).2.corners g).length = (state.2.corners g).length := by
  rcases mergeCorner_cases tolerance f state j with
    ⟨-, he⟩ | ⟨w, -, he⟩ | ⟨w, u, -, -, -, he⟩
  · rw [he]
  · rw [he]
  · rw [he, corners_relabel]
    split
    next hg => rw [List.length_map, hg]
    next => rfl

theorem length_mergeFace :
    ((mergeFace tolerance state f).2.corners g).length = (state.2.corners g).length :=
  List.foldlRecOn (motive := fun s : List VertexId × Mesh α =>
    (s.2.corners g).length = (state.2.corners g).length) _ _ rfl
    fun _ h _ _ => length_mergeCorner.trans h

theorem visited_face : Visited f i (mergeFace tolerance state f) := by
  intro v hv
  have hi : i ∈ List.range (state.2.corners f).length := by
    rw [List.mem_range, ← length_mergeFace ]
    exact (List.getElem?_eq_some_iff.mp hv).1
  have hvisited : Visited f i (mergeFace tolerance state f) :=
    foldl_of_mem (fun _ => visited_corner) (fun _ _ => Visited.corner) hi state
  exact hvisited v hv

theorem length_mergeVertices (tolerance : α) (m : Mesh α) (g : FaceId) :
    ((m.mergeVertices tolerance).2.corners g).length = (m.corners g).length :=
  List.foldlRecOn (motive := fun s : List VertexId × Mesh α =>
    (s.2.corners g).length = (m.corners g).length) _ _ rfl fun _ h _ _ => length_mergeFace.trans h

theorem Visited.face (h : Visited g i state) : Visited g i (mergeFace tolerance state f) :=
  List.foldlRecOn _ _ h fun _ h _ _ => h.corner

theorem mem_kept_of_corner {m : Mesh α} {v : VertexId}
    (hv : v ∈ (m.mergeVertices tolerance).2.corners f) : v ∈ (m.mergeVertices tolerance).1 := by
  obtain ⟨i, hi⟩ := List.mem_iff_getElem?.mp hv
  have hf : f ∈ m.faceIds := by
    rw [faceIds, List.mem_range]
    refine Nat.lt_of_not_le fun hle => ?_
    have hlength := length_mergeVertices tolerance m f
    rw [corners_of_le m f hle] at hlength
    rw [List.eq_nil_of_length_eq_zero hlength] at hv
    cases hv
  have hvisited : Visited f i (m.mergeVertices tolerance) :=
    foldl_of_mem (fun _ => visited_face) (fun _ _ => Visited.face) hf _
  exact hvisited v hi

/-- A triangle that uses a vertex twice has merged a corner into it. -/
structure Contracted (tolerance : α) (m : Mesh α) : Prop where
  triangular : ∀ f < m.faces.size, (m.corners f).length = 3
  repeated : ∀ f u, 2 ≤ (m.corners f).count u → ∃ q, (m.position u - q).length < tolerance

theorem Contracted.relabel {m : Mesh α} (h : Contracted tolerance m) {v u : VertexId}
    (hclose : (m.position u - m.position v).length < tolerance) :
    Contracted tolerance (m.relabel f v u) := by
  constructor
  · intro g hg
    rw [size_faces_relabel] at hg
    rw [corners_relabel]
    split
    next hgf => rw [List.length_map, ← hgf, h.triangular g hg]
    next => exact h.triangular g hg
  · intro g w hw
    rw [position_relabel]
    -- only `u` gains a corner, and that one was close to it
    by_cases hwu : w = u
    · exact ⟨m.position v, hwu ▸ hclose⟩
    · rw [corners_relabel] at hw
      split at hw
      next hgf =>
        refine h.repeated f w (Nat.le_trans hw ?_)
        rw [List.count, List.countP_map]
        refine List.countP_mono_left fun x _ hx => ?_
        by_cases hxv : x = v
        · simp [hxv, Ne.symm hwu] at hx
        · simpa [hxv] using hx
      next => exact h.repeated g w hw

theorem Contracted.corner (h : Contracted tolerance state.2) :
    Contracted tolerance (mergeCorner tolerance f state j).2 := by
  rcases mergeCorner_cases tolerance f state j with
    ⟨-, he⟩ | ⟨v, -, he⟩ | ⟨v, u, -, -, hclose, he⟩
  · rwa [he]
  · rwa [he]
  · rw [he]
    exact h.relabel hclose

/-- Triangles over the kept vertices, with the faces around a vertex recorded at it. -/
structure Merged (tolerance : α) (kept : List VertexId) (m : Mesh α) : Prop where
  indexed : m.Indexed
  contracted : Contracted tolerance m
  corners_kept : ∀ f v, v ∈ m.corners f → v ∈ kept
  kept_existing : ∀ v ∈ kept, v < m.vertices.size

theorem Merged.kept_of_mem {kept : List VertexId} {m : Mesh α} (h : Merged tolerance kept m)
    {corners : List VertexId} (hcorners : corners ∈ m.faces.toList) {v : VertexId}
    (hv : v ∈ corners) : v ∈ kept := by
  obtain ⟨f, hf⟩ := List.mem_iff_getElem?.mp hcorners
  exact h.corners_kept f v (corners_eq (Array.getElem?_toList ▸ hf) ▸ hv)

theorem Merged.length_of_mem {kept : List VertexId} {m : Mesh α} (h : Merged tolerance kept m)
    {corners : List VertexId} (hcorners : corners ∈ m.faces.toList) : corners.length = 3 := by
  obtain ⟨f, hf⟩ := List.mem_iff_getElem?.mp hcorners
  rw [Array.getElem?_toList] at hf
  rw [← corners_eq hf]
  exact h.contracted.triangular f (Array.getElem?_eq_some_iff.mp hf).1

theorem merged_of_triangles {m : Mesh α} (hm : m.Indexed)
    (htriangles : ∀ f < m.faces.size, (m.corners f).length = 3)
    (hnodup : ∀ f, (m.corners f).Nodup) :
    Merged tolerance (m.mergeVertices tolerance).1 (m.mergeVertices tolerance).2 := by
  have hmerging := hm.merging tolerance
  have hcontracted : Contracted tolerance m := by
    refine ⟨htriangles, fun f u hu => ?_⟩
    have hle := List.nodup_iff_count_le_one.mp (hnodup f) u
    omega
  refine ⟨hmerging.indexed, ?_, fun _ _ => mem_kept_of_corner, hmerging.kept⟩
  exact List.foldlRecOn (motive := fun s : List VertexId × Mesh α => Contracted tolerance s.2)
    _ _ hcontracted fun s h f _ => List.foldlRecOn
      (motive := fun s : List VertexId × Mesh α => Contracted tolerance s.2) _ _ h
      fun _ h _ _ => h.corner

/-- Where points are as close to themselves as to their neighbours, such a triangle is degenerate.
Only points that are no numbers are far from themselves. -/
theorem Merged.nodup {kept : List VertexId} {m : Mesh α} (h : Merged mergeTolerance kept m)
    (hself : ∀ p q : Vec3 α, (p - q).length < mergeTolerance →
      (p - p).length < degenerateTolerance)
    (hf : f < m.faces.size) (hdegenerate : m.isDegenerate f degenerateTolerance = false) :
    (m.corners f).Nodup := by
  obtain ⟨a, b, c, he⟩ := List.length_eq_three.mp (h.contracted.triangular f hf)
  have hclose (u : VertexId) (hu : 2 ≤ (m.corners f).count u) :
      (m.position u - m.position u).length < degenerateTolerance := by
    obtain ⟨q, hq⟩ := h.contracted.repeated f u hu
    exact hself _ q hq
  rw [he] at hclose ⊢
  simp only [isDegenerate, he, triangleOf?, Triangle.hasCoincidentCorners, Bool.or_eq_false_iff,
    decide_eq_false_iff_not] at hdegenerate
  obtain ⟨⟨hab, hbc⟩, hca⟩ := hdegenerate
  have ha : a ≠ b := by
    rintro rfl
    exact hab (hclose a (by simp [List.count_cons]))
  have hb : b ≠ c := by
    rintro rfl
    exact hbc (hclose b (by simp [List.count_cons]))
  have hc : c ≠ a := by
    rintro rfl
    exact hca (hclose c (by simp [List.count_cons]))
  simp [ha, hb, hc.symm]

omit [Scalar α] in
theorem ofPolygons_faces {polygons : List (List (Vec3 α))} (h : ∀ p ∈ polygons, p.length = 3) :
    (ofPolygons polygons).Indexed ∧ ∀ f < (ofPolygons polygons).faces.size,
      ((ofPolygons polygons).corners f).length = 3 ∧ ((ofPolygons polygons).corners f).Nodup := by
  refine List.foldlRecOn (motive := fun m : Mesh α => m.Indexed ∧ ∀ f < m.faces.size,
    (m.corners f).length = 3 ∧ (m.corners f).Nodup) _ _ ⟨.empty, by simp⟩ ?_
  intro m hm p hp
  refine ⟨hm.1.addPolygon p, fun f hf => ?_⟩
  rw [addPolygon_eq] at hf ⊢
  rw [faces_pushFace, Array.size_push] at hf
  rw [corners_pushFace]
  split
  · exact ⟨by rw [List.length_range', h p hp], List.nodup_range'⟩
  next hne => exact hm.2 f (Nat.lt_of_le_of_ne (Nat.le_of_lt_succ hf) hne)

end Mesh

namespace Surface

variable {α : Type} [Scalar α] {surface : Surface α}

open Mesh

theorem merged_triangles (h : ∀ p ∈ surface, p.length = 3) :
    Merged mergeTolerance surface.merged.1 surface.merged.2 := by
  obtain ⟨hindexed, hfaces⟩ := ofPolygons_faces h
  refine merged_of_triangles hindexed (fun f hf => (hfaces f hf).1) fun f => ?_
  rcases Nat.lt_or_ge f (ofPolygons surface).faces.size with hf | hf
  · exact (hfaces f hf).2
  · rw [corners_of_le _ f hf]
    exact List.nodup_nil

end Surface

end Arbor
