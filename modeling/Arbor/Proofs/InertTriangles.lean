import Mathlib.Tactic.NormNum
import Arbor.Proofs.AddedFaces

namespace Arbor

/-- Two runs stay in correspondence if their steps do, as long as an invariant holds. -/
theorem foldl_lift {σ τ ι : Type} {step : σ → ι → σ} {step' : τ → ι → τ} {F : σ → τ}
    {P : σ → Prop} {xs : List ι} (hkeep : ∀ s, ∀ x ∈ xs, P s → P (step s x))
    (hstep : ∀ s, ∀ x ∈ xs, P s → step' (F s) x = F (step s x)) {s : σ} (hs : P s) :
    xs.foldl step' (F s) = F (xs.foldl step s) := by
  induction xs generalizing s with
  | nil => rfl
  | cons x xs ih =>
      rw [List.foldl_cons, List.foldl_cons, hstep s x List.mem_cons_self hs]
      exact ih (fun s y hy => hkeep s y (List.mem_cons_of_mem _ hy))
        (fun s y hy => hstep s y (List.mem_cons_of_mem _ hy)) (hkeep s x List.mem_cons_self hs)

namespace Mesh

variable {α : Type} {m : Mesh α} {points : List (Vec3 α)} {f v u : Nat}

theorem vertices_foldl_register (m : Mesh α) (f : FaceId) {corners : List VertexId}
    (hcorners : corners.Nodup) (j : Nat) :
    (corners.foldl (fun m v => m.register f v) m).vertices[j]? =
      if j ∈ corners then (m.vertices[j]?).map fun x =>
        if x.containing.contains f then x else { x with containing := x.containing ++ [f] }
      else m.vertices[j]? := by
  induction corners generalizing m with
  | nil => simp
  | cons v corners ih =>
      obtain ⟨hv, hrest⟩ := List.nodup_cons.mp hcorners
      rw [List.foldl_cons, ih _ hrest, register, vertices_modifyVertex]
      by_cases hj : j = v
      · subst hj
        simp [hv]
      · simp [hj]

theorem vertices_addPolygon (m : Mesh α) (points : List (Vec3 α)) (j : Nat) :
    (m.addPolygon points).2.vertices[j]? = if j < m.vertices.size then m.vertices[j]?
      else (points[j - m.vertices.size]?).map fun p =>
        { position := p, containing := [m.faces.size] } := by
  rw [addPolygon_eq, pushFace]
  dsimp only
  rw [vertices_foldl_register _ _ List.nodup_range']
  by_cases hj : j < m.vertices.size
  · have hnot : j ∉ List.range' m.vertices.size points.length := by
      simp only [List.mem_range'_1]
      omega
    rw [if_neg hnot, if_pos hj]
    exact Array.getElem?_append_left hj
  · have hget : (m.addVertices points).vertices[j]? =
        (points[j - m.vertices.size]?).map fun p => { position := p } := by
      rw [addVertices, Array.getElem?_append_right (Nat.not_lt.mp hj), List.getElem?_toArray,
        List.getElem?_map]
    rw [if_neg hj, hget]
    cases hpoint : points[j - m.vertices.size]? with
    | none => simp
    | some p =>
        have hlt := (List.getElem?_eq_some_iff.mp hpoint).1
        have hmem : j ∈ List.range' m.vertices.size points.length := by
          simp only [List.mem_range'_1]
          omega
        simp [hmem]

theorem faces_addPolygon (m : Mesh α) (points : List (Vec3 α)) : (m.addPolygon points).2.faces =
    m.faces.push (List.range' m.vertices.size points.length) := by
  rw [addPolygon_eq, faces_pushFace, faces_addVertices]

theorem corners_addPolygon (m : Mesh α) (points : List (Vec3 α)) :
    (m.addPolygon points).2.corners m.faces.size =
      List.range' m.vertices.size points.length :=
  corners_push_size (m.faces_addPolygon points)

theorem ofPolygons_concat (polygons : List (List (Vec3 α))) (points : List (Vec3 α)) :
    ofPolygons (polygons ++ [points]) = ((ofPolygons polygons).addPolygon points).2 := by
  rw [ofPolygons, List.foldl_append]
  rfl

theorem size_faces_ofPolygons (polygons : List (List (Vec3 α))) :
    (ofPolygons polygons).faces.size = polygons.length := by
  induction polygons using List.reverseRecOn with
  | nil => rfl
  | append_singleton polygons points ih =>
      rw [ofPolygons_concat, faces_addPolygon, Array.size_push, ih, List.length_append,
        List.length_singleton]

theorem modifyVertex_addPolygon (hv : v < m.vertices.size) (change : Vertex α → Vertex α) :
    (m.addPolygon points).2.modifyVertex v change =
      ((m.modifyVertex v change).addPolygon points).2 := by
  have hfaces : ((m.addPolygon points).2.modifyVertex v change).faces =
      ((m.modifyVertex v change).addPolygon points).2.faces := by
    rw [faces_modifyVertex, faces_addPolygon, faces_addPolygon, size_modifyVertex,
      faces_modifyVertex]
  have hvertices : ((m.addPolygon points).2.modifyVertex v change).vertices =
      ((m.modifyVertex v change).addPolygon points).2.vertices := by
    refine Array.ext_getElem? fun j => ?_
    rw [vertices_modifyVertex, vertices_addPolygon, vertices_addPolygon, size_modifyVertex,
      vertices_modifyVertex, faces_modifyVertex]
    by_cases hj : j = v
    · subst hj
      simp [hv]
    · simp [hj]
  exact (Mesh.mk.injEq ..).mpr ⟨hvertices, hfaces⟩

theorem relabel_addPolygon (hf : f < m.faces.size) (hv : v < m.vertices.size)
    (hu : u < m.vertices.size) : (m.addPolygon points).2.relabel f v u =
      ((m.relabel f v u).addPolygon points).2 := by
  have hmoved : ((m.addPolygon points).2.deregister f v).register f u =
      (((m.deregister f v).register f u).addPolygon points).2 := by
    rw [deregister, modifyVertex_addPolygon hv, register, modifyVertex_addPolygon]
    · rfl
    · rwa [size_modifyVertex]
  have hvertices : ((m.addPolygon points).2.relabel f v u).vertices =
      ((m.relabel f v u).addPolygon points).2.vertices := by
    refine Array.ext_getElem? fun j => ?_
    rw [relabel, hmoved, vertices_addPolygon, vertices_addPolygon, size_faces_relabel]
    rfl
  have hfaces : ((m.addPolygon points).2.relabel f v u).faces =
      ((m.relabel f v u).addPolygon points).2.faces := by
    refine Array.ext_getElem? fun j => ?_
    rw [relabel, hmoved, faces_addPolygon, faces_addPolygon, size_relabel, relabel]
    simp only [Array.getElem?_modify, Array.getElem?_push, Array.size_modify, faces_register,
      faces_deregister, size_register, size_deregister]
    by_cases hj : f = j
    · subst hj
      simp [Nat.ne_of_lt hf]
    · simp [hj]
  exact (Mesh.mk.injEq ..).mpr ⟨hvertices, hfaces⟩

variable [Scalar α] {tolerance : α}

theorem position_addPolygon (m : Mesh α) (points : List (Vec3 α)) (j : Nat) :
    (m.addPolygon points).2.position j = if j < m.vertices.size then m.position j
      else (points[j - m.vertices.size]?).getD 0 := by
  rw [position_eq_map, vertices_addPolygon, position_eq_map]
  split
  · rfl
  · cases points[j - m.vertices.size]? <;> rfl

theorem points_addPolygon (m : Mesh α) (points : List (Vec3 α)) :
    ((m.addPolygon points).2.corners m.faces.size).map (m.addPolygon points).2.position =
      points := by
  rw [corners_addPolygon]
  refine List.ext_getElem (by simp) fun i _ hi => ?_
  rw [List.getElem_map, List.getElem_range', position_addPolygon, if_neg (by omega), one_mul,
    Nat.add_sub_cancel_left, List.getElem?_eq_getElem hi, Option.getD_some]

theorem points_addPolygon_of_lt (hm : m.Indexed) (points : List (Vec3 α)) (hf : f < m.faces.size) :
    ((m.addPolygon points).2.corners f).map (m.addPolygon points).2.position =
      (m.corners f).map m.position := by
  have hcorners : (m.addPolygon points).2.corners f = m.corners f := by
    rw [corners, faces_addPolygon, Array.getElem?_push, if_neg (Nat.ne_of_lt hf), corners]
  rw [hcorners]
  refine List.map_congr_left fun v hv => ?_
  rw [position_addPolygon, if_pos (hm.existing f v hv)]

theorem points_ofPolygons {polygons : List (List (Vec3 α))} (hf : polygons[f]? = some points) :
    ((ofPolygons polygons).corners f).map (ofPolygons polygons).position = points := by
  induction polygons using List.reverseRecOn with
  | nil => cases hf
  | append_singleton polygons last ih =>
      have hindexed : (ofPolygons polygons).Indexed :=
        List.foldlRecOn _ _ .empty fun _ h p _ => h.addPolygon p
      have hsize := size_faces_ofPolygons polygons
      rw [ofPolygons_concat]
      rcases Nat.lt_or_ge f polygons.length with hlt | hge
      · rw [List.getElem?_append_left hlt] at hf
        rw [points_addPolygon_of_lt hindexed last (hsize ▸ hlt), ih hf]
      · rw [List.getElem?_append_right hge, List.getElem?_singleton] at hf
        split at hf
        next hlast =>
          obtain rfl : f = (ofPolygons polygons).faces.size := by omega
          rw [points_addPolygon, Option.some.inj hf]
        next => cases hf

theorem triangle_ok (hf : (m.corners f).length = 3) :
    ∃ t, m.triangleOf? (m.corners f) = some t ∧ m.triangle f = .ok t := by
  obtain ⟨a, b, c, he⟩ := List.length_eq_three.mp hf
  have hlt : f < m.faces.size := lt_of_mem_corners (he ▸ List.mem_cons_self)
  have hget : m.faces[f]? = some [a, b, c] := by
    rw [← he, corners, Array.getElem?_eq_getElem hlt, Option.getD_some]
  exact ⟨_, by rw [he]; rfl, by rw [triangle, hget]; rfl⟩

theorem triangleOf?_of_points {a b c : Vec3 α} (h : (m.corners f).map m.position = [a, b, c]) :
    m.triangleOf? (m.corners f) = some ⟨a, b, c⟩ := by
  obtain ⟨i, j, k, he⟩ := List.length_eq_three.mp
    ((List.length_map m.position).symm.trans (congrArg List.length h))
  rw [he] at h ⊢
  simp only [List.map_cons, List.map_nil, List.cons.injEq, and_true] at h
  obtain ⟨rfl, rfl, rfl⟩ := h
  rfl

theorem keptAt?_addPolygon {kept : List VertexId} (hkept : ∀ u ∈ kept, u < m.vertices.size)
    (hv : v < m.vertices.size) :
    keptAt? tolerance (m.addPolygon points).2 kept v = keptAt? tolerance m kept v := by
  refine List.find?_congr fun u hu => ?_
  rw [position_addPolygon, position_addPolygon, if_pos (hkept u hu), if_pos hv]

theorem mergeCorner_addPolygon {state : List VertexId × Mesh α} (h : Indexed.Merging state)
    (hf : f < state.2.faces.size) (i : Nat) :
    mergeCorner tolerance f (state.1, (state.2.addPolygon points).2) i =
      ((mergeCorner tolerance f state i).1,
        ((mergeCorner tolerance f state i).2.addPolygon points).2) := by
  obtain ⟨kept, m⟩ := state
  unfold mergeCorner
  dsimp only at hf ⊢
  rw [corners_of_push (faces_addPolygon ..) hf]
  cases hcorner : (m.corners f)[i]? with
  | none => rfl
  | some v =>
      have hv := h.indexed.existing f v (List.mem_of_getElem? hcorner)
      dsimp only
      rw [keptAt?_addPolygon h.kept hv]
      cases hfind : keptAt? tolerance m kept v with
      | none => rfl
      | some u =>
          have hu := h.kept u (List.mem_of_find?_eq_some hfind)
          dsimp only
          split
          · rfl
          · rw [relabel_addPolygon hf hv hu]

theorem size_faces_mergeCorner (state : List VertexId × Mesh α) (f i : Nat) :
    (mergeCorner tolerance f state i).2.faces.size = state.2.faces.size := by
  rcases mergeCorner_cases tolerance f state i with ⟨-, he⟩ | ⟨_, -, he⟩ | ⟨_, _, -, -, -, he⟩
  · rw [he]
  · rw [he]
  · rw [he, size_faces_relabel]

theorem size_faces_mergeFace (state : List VertexId × Mesh α) (f : FaceId) :
    (mergeFace tolerance state f).2.faces.size = state.2.faces.size :=
  List.foldlRecOn (motive := fun s : List VertexId × Mesh α => s.2.faces.size = state.2.faces.size)
    _ _ rfl fun s h i _ => (size_faces_mergeCorner s f i).trans h

theorem mergeFace_addPolygon {state : List VertexId × Mesh α} (h : Indexed.Merging state)
    (hf : f < state.2.faces.size) :
    mergeFace tolerance (state.1, (state.2.addPolygon points).2) f =
      ((mergeFace tolerance state f).1, ((mergeFace tolerance state f).2.addPolygon points).2) := by
  unfold mergeFace
  dsimp only
  rw [corners_of_push (faces_addPolygon ..) hf]
  refine foldl_lift (F := fun s : List VertexId × Mesh α => (s.1, (s.2.addPolygon points).2))
    (P := fun s => Indexed.Merging s ∧ f < s.2.faces.size) (fun s i _ hs => ?_)
    (fun s i _ hs => mergeCorner_addPolygon hs.1 hs.2 i) ⟨h, hf⟩
  exact ⟨hs.1.corner tolerance f i, (size_faces_mergeCorner s f i).symm ▸ hs.2⟩

theorem size_faces_mergeVertices (m : Mesh α) :
    (m.mergeVertices tolerance).2.faces.size = m.faces.size :=
  List.foldlRecOn (motive := fun s : List VertexId × Mesh α => s.2.faces.size = m.faces.size)
    _ _ rfl fun s h f _ => (size_faces_mergeFace s f).trans h

theorem mergeVertices_addPolygon (hm : m.Indexed) :
    (m.addPolygon points).2.mergeVertices tolerance =
      mergeFace tolerance ((m.mergeVertices tolerance).1,
        ((m.mergeVertices tolerance).2.addPolygon points).2) m.faces.size := by
  have hids : (m.addPolygon points).2.faceIds = m.faceIds ++ [m.faces.size] := by
    rw [faceIds, faces_addPolygon, Array.size_push, List.range_succ, faceIds]
  rw [mergeVertices, hids, List.foldl_append, List.foldl_cons, List.foldl_nil, mergeVertices]
  congr 1
  refine foldl_lift (F := fun s : List VertexId × Mesh α => (s.1, (s.2.addPolygon points).2))
    (P := fun s => Indexed.Merging s ∧ s.2.faces.size = m.faces.size) (fun s f _ hs => ?_)
    (fun s f hf hs => mergeFace_addPolygon hs.1 (hs.2 ▸ List.mem_range.mp hf))
    (s := ([], m)) ⟨⟨hm, fun u hu => absurd hu List.not_mem_nil⟩, rfl⟩
  exact ⟨hs.1.face tolerance f, (size_faces_mergeFace s f).trans hs.2⟩

variable {m' : Mesh α} {state : List VertexId × Mesh α}

theorem Grown.addPolygon (m : Mesh α) (hpoints : points.length = 3) :
    Grown m (m.addPolygon points).2 := by
  have hsize : m.vertices.size ≤ (m.addPolygon points).2.vertices.size := by
    rw [addPolygon_eq, size_pushFace, size_addVertices]
    exact Nat.le_add_right ..
  refine ⟨⟨_, by rw [List.length_range', hpoints], m.faces_addPolygon points⟩, hsize,
    fun v hv => by rw [position_addPolygon, if_pos hv], fun v hv => .inl ?_⟩
  rw [containing_eq_map, vertices_addPolygon, if_pos hv, containing_eq_map]

theorem Grown.relabel (h : Grown m m') (hm : m.Indexed) (old new : VertexId) :
    Grown m (m'.relabel m.faces.size old new) := by
  obtain ⟨corners, hlength, he⟩ := h.faces
  refine ⟨⟨corners.map fun v => if v = old then new else v, by rw [List.length_map, hlength], ?_⟩,
    by rw [size_relabel]; exact h.size, fun v hv => by rw [position_relabel, h.position v hv],
    fun v hv => ?_⟩
  · refine Array.ext_getElem? fun j => ?_
    rw [Mesh.relabel]
    simp only [faces_register, faces_deregister, he, Array.getElem?_modify, Array.getElem?_push]
    by_cases hj : m.faces.size = j
    · simp [hj]
    · simp [hj, Ne.symm hj]
  · have hnot : m.faces.size ∉ m.containing v := by
      rw [hm.listed, corners_of_le m _ (Nat.le_refl _)]
      exact List.not_mem_nil
    have hkeep : (m.containing v).filter (· != m.faces.size) = m.containing v := by
      refine List.filter_eq_self.mpr fun f hf => bne_iff_ne.mpr ?_
      rintro rfl
      exact hnot hf
    have hleft : (m'.deregister m.faces.size old).containing v = m.containing v ∨
        (m'.deregister m.faces.size old).containing v = m.containing v ++ [m.faces.size] := by
      rw [containing_deregister]
      split
      · left
        rcases h.containing v hv with hv | hv
        · rw [hv, hkeep]
        · simp [hv, List.filter_append, hkeep]
      · exact h.containing v hv
    change ((m'.deregister m.faces.size old).register m.faces.size new).containing v = _ ∨
      ((m'.deregister m.faces.size old).register m.faces.size new).containing v = _
    rw [containing_register]
    split
    next hnew =>
      obtain ⟨rfl, -, habsent⟩ := hnew
      rcases hleft with hleft | hleft
      · exact .inr (by rw [hleft])
      · simp [hleft] at habsent
    next => exact hleft

theorem Grown.mergeFace (h : Grown m state.2) (hm : m.Indexed) :
    Grown m (mergeFace tolerance state m.faces.size).2 := by
  refine List.foldlRecOn (motive := fun s : List VertexId × Mesh α => Grown m s.2) _ _ h
    fun s h i _ => ?_
  rcases mergeCorner_cases tolerance m.faces.size s i with
    ⟨-, he⟩ | ⟨_, -, he⟩ | ⟨v, u, -, -, -, he⟩
  · rwa [he]
  · rwa [he]
  · rw [he]
    exact h.relabel hm v u

theorem repeated_mergeCorner (h : ¬ (state.2.corners f).Nodup) (i : Nat) :
    ¬ ((mergeCorner tolerance f state i).2.corners f).Nodup := by
  rcases mergeCorner_cases tolerance f state i with ⟨-, he⟩ | ⟨_, -, he⟩ | ⟨v, u, -, -, -, he⟩
  · rwa [he]
  · rwa [he]
  · rw [he, corners_relabel, if_pos rfl]
    exact fun hnodup => h hnodup.of_map

section

variable {kept : List VertexId}

theorem mergeCorner_apart (hkept : ∀ u ∈ kept, u < m.vertices.size) (hpoints : points.length = 3)
    (hapart : ∀ u ∈ kept, ∀ p ∈ points, ¬ (m.position u - p).length < tolerance) {k : Nat}
    (hk : k < 3) :
    let visited := mergeCorner tolerance m.faces.size
      (kept ++ List.range' m.vertices.size k, (m.addPolygon points).2) k
    ¬ (visited.2.corners m.faces.size).Nodup ∨
      visited = (kept ++ List.range' m.vertices.size (k + 1), (m.addPolygon points).2) := by
  intro visited
  have hcorner : ((m.addPolygon points).2.corners m.faces.size)[k]? =
      some (m.vertices.size + k) := by
    rw [corners_addPolygon, hpoints, List.getElem?_range' hk]
    simp
  rcases mergeCorner_cases tolerance m.faces.size
    (kept ++ List.range' m.vertices.size k, (m.addPolygon points).2) k with
    ⟨hvisited, -⟩ | ⟨v, hv, hnext⟩ | ⟨v, u, hv, hu, hclose, hnext⟩
  · -- the corner is a new vertex
    rcases List.mem_append.mp (hvisited _ hcorner) with hmem | hmem
    · exact (Nat.not_lt.mpr (Nat.le_add_right _ k) (hkept _ hmem)).elim
    · simp only [List.mem_range'_1] at hmem
      omega
  · obtain rfl := Option.some.inj (hcorner.symm.trans hv)
    refine .inr (hnext.trans ?_)
    rw [List.append_assoc, List.range'_concat]
    simp
  · obtain rfl := Option.some.inj (hcorner.symm.trans hv)
    refine .inl ?_
    rw [show visited = _ from hnext, corners_relabel, if_pos rfl, corners_addPolygon, hpoints]
    rcases List.mem_append.mp hu with hu | hu
    · have hk' : k < points.length := hpoints ▸ hk
      rw [position_addPolygon, position_addPolygon, if_pos (hkept u hu),
        if_neg (by omega), Nat.add_sub_cancel_left, List.getElem?_eq_getElem hk',
        Option.getD_some] at hclose
      exact (hapart u hu _ (List.getElem_mem hk') hclose).elim
    · -- two corners are `u` from now on
      rw [List.mem_range'_1] at hu
      intro hnodup
      have hsame := List.inj_on_of_nodup_map hnodup
        (List.mem_range'_1.mpr ⟨Nat.le_add_right _ k, by omega⟩)
        (List.mem_range'_1.mpr ⟨hu.1, by omega⟩)
        (show _ = ite (u = _) u u by simp)
      omega

theorem mergeFace_apart (hkept : ∀ u ∈ kept, u < m.vertices.size) (hpoints : points.length = 3)
    (hapart : ∀ u ∈ kept, ∀ p ∈ points, ¬ (m.position u - p).length < tolerance) :
    ¬ ((Mesh.mergeFace tolerance (kept, (m.addPolygon points).2) m.faces.size).2.corners
        m.faces.size).Nodup ∨
      (Mesh.mergeFace tolerance (kept, (m.addPolygon points).2) m.faces.size).2 =
        (m.addPolygon points).2 := by
  have hpartial (k : Nat) (hk : k ≤ 3) :
      let visited := (List.range k).foldl (mergeCorner tolerance m.faces.size)
        (kept, (m.addPolygon points).2)
      ¬ (visited.2.corners m.faces.size).Nodup ∨
        visited = (kept ++ List.range' m.vertices.size k, (m.addPolygon points).2) := by
    induction k with
    | zero => exact .inr (by simp)
    | succ k ih =>
        dsimp only at ih ⊢
        rw [List.range_succ, List.foldl_append, List.foldl_cons, List.foldl_nil]
        rcases ih (Nat.le_of_succ_le hk) with hrepeated | he
        · exact .inl (repeated_mergeCorner hrepeated k)
        · rw [he]
          exact mergeCorner_apart hkept hpoints hapart hk
  rw [Mesh.mergeFace, corners_addPolygon, hpoints, List.length_range']
  exact (hpartial 3 (Nat.le_refl 3)).imp_right (congrArg Prod.snd)

end

end Mesh

theorem length_sub_comm (p q : Vec3 ℝ) : (p - q).length = (q - p).length := by
  have h : (p - q).lengthSq = (q - p).lengthSq := by
    rw [Surface.lengthSq_sub, Surface.lengthSq_sub]
    ring
  rw [Vec3.length, h, Vec3.length]

theorem length_sub_self (p : Vec3 ℝ) : (p - p).length = 0 := by
  have h : (p - p).lengthSq = 0 := by
    rw [Surface.lengthSq_sub]
    ring
  rw [Vec3.length, h]
  exact Real.sqrt_zero

theorem add_sub_add (p q d : Vec3 ℝ) : p + d - (q + d) = p - q :=
  (Vec3.mk.injEq ..).mpr ⟨add_sub_add_right_eq_sub .., add_sub_add_right_eq_sub ..,
    add_sub_add_right_eq_sub ..⟩

theorem add_zero_vector (p : Vec3 ℝ) : p + 0 = p :=
  (Vec3.mk.injEq ..).mpr ⟨add_zero _, add_zero _, add_zero _⟩

namespace Mesh

variable {m copy : Mesh ℝ} {kept : List VertexId} {f : Nat} {d : ℝ}

theorem degenerateTolerance_pos : (0 : ℝ) < degenerateTolerance := by
  norm_num [degenerateTolerance]

theorem eq_of_repeated {a b c : VertexId} (he : m.corners f = [a, b, c])
    (h : ¬ (m.corners f).Nodup) : a = b ∨ b = c ∨ c = a := by
  by_contra hne
  rw [not_or, not_or] at hne
  obtain ⟨hab, hbc, hca⟩ := hne
  exact h (he ▸ by simp [hab, hbc, Ne.symm hca])

theorem isDegenerate_of_repeated (hf : (m.corners f).length = 3) (h : ¬ (m.corners f).Nodup) :
    m.isDegenerate f degenerateTolerance = true := by
  obtain ⟨a, b, c, he⟩ := List.length_eq_three.mp hf
  have hself (p : Vec3 ℝ) : decide ((p - p).length < degenerateTolerance) = true := by
    rw [length_sub_self]
    exact decide_eq_true degenerateTolerance_pos
  rw [isDegenerate, he]
  simp only [triangleOf?, Triangle.hasCoincidentCorners]
  rcases eq_of_repeated he h with rfl | rfl | rfl <;> simp [hself]

theorem isDegenerate_turned (m : Mesh ℝ) (f : FaceId) (tolerance : ℝ) :
    ({ m with faces := m.faces.map turned } : Mesh ℝ).isDegenerate f tolerance =
      m.isDegenerate f tolerance := by
  have hcorners : ({ m with faces := m.faces.map turned } : Mesh ℝ).corners f =
      turned (m.corners f) := by
    rw [corners, corners, Array.getElem?_map]
    cases m.faces[f]? <;> rfl
  rw [isDegenerate, isDegenerate, hcorners]
  rcases m.corners f with _ | ⟨a, _ | ⟨b, _ | ⟨c, _ | ⟨d, rest⟩⟩⟩⟩
  case cons.cons.cons.nil =>
      change (decide ((m.position a - m.position c).length < tolerance) ||
          decide ((m.position c - m.position b).length < tolerance) ||
          decide ((m.position b - m.position a).length < tolerance)) =
        (decide ((m.position a - m.position b).length < tolerance) ||
          decide ((m.position b - m.position c).length < tolerance) ||
          decide ((m.position c - m.position a).length < tolerance))
      rw [length_sub_comm (m.position a) (m.position c),
        length_sub_comm (m.position c) (m.position b),
        length_sub_comm (m.position b) (m.position a)]
      grind
  all_goals rfl

/-- A triangle whose corners coincide, or that is degenerate with one normal at its corners. -/
def Flat (m : Mesh ℝ) (f : FaceId) : Prop :=
  ¬ (m.corners f).Nodup ∨ m.isDegenerate f degenerateTolerance = true ∧
    ∃ n, ∀ v ∈ m.corners f, m.vertexNormal v = .ok n

theorem Flat.degenerate (h : Flat m f) (hf : (m.corners f).length = 3) :
    m.isDegenerate f degenerateTolerance = true :=
  h.elim (isDegenerate_of_repeated hf) And.left

theorem Flat.isDegenerate_copy (h : Flat m f) (hf : (m.corners f).length = 3)
    (hkept : ∀ v ∈ m.corners f, v ∈ kept) (hcopy : Copies kept m d copy) :
    copy.isDegenerate f degenerateTolerance = true := by
  have hcorners : copy.corners f = m.corners f := by rw [corners, hcopy.faces, corners]
  rcases h with hrepeated | ⟨hdegenerate, n, hn⟩
  · exact isDegenerate_of_repeated (hcorners ▸ hf) (hcorners ▸ hrepeated)
  · obtain ⟨a, b, c, he⟩ := List.length_eq_three.mp hf
    have hposition : ∀ v ∈ m.corners f, copy.position v = m.position v + n * d := by
      intro v hv
      obtain ⟨k, hk, hposition⟩ := hcopy.position v (hkept v hv)
      obtain rfl := Except.ok.inj (hk.symm.trans (hn v hv))
      exact hposition
    rw [he] at hposition
    rw [isDegenerate, he] at hdegenerate
    rw [isDegenerate, hcorners, he]
    simp only [triangleOf?, Triangle.hasCoincidentCorners, hposition _ List.mem_cons_self,
      hposition b (by simp), hposition c (by simp), add_sub_add] at hdegenerate ⊢
    exact hdegenerate

theorem Idle.turned {m m' : Mesh ℝ} (h : Idle m m') :
    Idle { m with faces := m.faces.map turned } { m' with faces := m'.faces.map turned } := by
  obtain ⟨corners, hlength, he⟩ := h.faces
  refine ⟨⟨Arbor.turned corners, by rw [length_turned, hlength], by simp [he]⟩,
    fun f v hv => h.position f v (mem_corners_turned.mp hv), ?_⟩
  rw [Array.size_map, isDegenerate_turned]
  exact h.degenerate

theorem Grown.idle_copies {m m' copy copy' : Mesh ℝ} {kept kept' : List VertexId}
    (h : Grown m m') (hm : Merged mergeTolerance kept m) (hm' : Merged mergeTolerance kept' m')
    (hunbent : Unbent m m') (hflat : Flat m' m.faces.size) (hcopy : Copies kept m d copy)
    (hcopy' : Copies kept' m' d copy') : Idle copy copy' := by
  obtain ⟨corners, hlength, he⟩ := h.faces
  refine ⟨⟨corners, hlength, by rw [hcopy'.faces, hcopy.faces, he]⟩, fun f v hv => ?_, ?_⟩
  · rw [Mesh.corners, hcopy.faces, ← Mesh.corners] at hv
    have hv' : v ∈ m'.corners f := (corners_of_push he (lt_of_mem_corners hv)).symm ▸ hv
    obtain ⟨n, hn, hposition⟩ := hcopy.position v (hm.corners_kept f v hv)
    obtain ⟨k, hk, hposition'⟩ := hcopy'.position v (hm'.corners_kept f v hv')
    obtain rfl : n = k := Except.ok.inj (hn.symm.trans ((hunbent f v hv).symm.trans hk))
    rw [hposition, hposition', h.position v (hm.indexed.existing f v hv)]
  · rw [hcopy.faces]
    refine hflat.isDegenerate_copy ?_ (fun v hv => hm'.corners_kept _ v hv) hcopy'
    rw [corners_push_size he, hlength]

end Mesh

namespace Mesh

variable {m m' : Mesh ℝ} {v f : Nat}

theorem length_zero : (0 : Vec3 ℝ).length = 0 := by
  rw [← length_sub_self 0]
  congr 1
  exact (Vec3.mk.injEq ..).mpr ⟨(sub_self _).symm, (sub_self _).symm, (sub_self _).symm⟩

theorem normalizeOrZero_zero : (0 : Vec3 ℝ).normalizeOrZero = 0 := by
  have hnone : (0 : Vec3 ℝ).normalize? = none := by
    unfold Vec3.normalize?
    rw [length_zero]
    exact if_neg fun h => absurd h.1 (by norm_num)
  rw [Vec3.normalizeOrZero, hnone, Option.getD_none]

theorem normal_of_repeated {t : Triangle ℝ} (h : t.a = t.b ∨ t.b = t.c ∨ t.c = t.a) :
    t.normal = 0 := by
  have hcross : (t.c - t.b).cross (t.a - t.b) = 0 := by
    obtain ⟨⟨ax, ay, az⟩, ⟨bx, bY, bz⟩, ⟨cx, cy, cz⟩⟩ := t
    refine (Vec3.mk.injEq ..).mpr ⟨?_, ?_, ?_⟩
    · change (cy - bY) * (az - bz) - (ay - bY) * (cz - bz) = 0
      simp only [Vec3.mk.injEq] at h
      rcases h with ⟨-, rfl, rfl⟩ | ⟨-, rfl, rfl⟩ | ⟨-, rfl, rfl⟩ <;> ring
    · change (cz - bz) * (ax - bx) - (az - bz) * (cx - bx) = 0
      simp only [Vec3.mk.injEq] at h
      rcases h with ⟨rfl, -, rfl⟩ | ⟨rfl, -, rfl⟩ | ⟨rfl, -, rfl⟩ <;> ring
    · change (cx - bx) * (ay - bY) - (ax - bx) * (cy - bY) = 0
      simp only [Vec3.mk.injEq] at h
      rcases h with ⟨rfl, rfl, -⟩ | ⟨rfl, rfl, -⟩ | ⟨rfl, rfl, -⟩ <;> ring
  rw [Triangle.normal, hcross, normalizeOrZero_zero]

theorem faceNormal_of_repeated (hf : (m.corners f).length = 3) (h : ¬ (m.corners f).Nodup) :
    m.faceNormal f = .ok 0 := by
  obtain ⟨a, b, c, he⟩ := List.length_eq_three.mp hf
  have hget : m.faces[f]? = some [a, b, c] := by
    have hlt : f < m.faces.size := lt_of_mem_corners (he ▸ List.mem_cons_self)
    rw [← he, corners, Array.getElem?_eq_getElem hlt, Option.getD_some]
  have hnormal : (⟨m.position a, m.position b, m.position c⟩ : Triangle ℝ).normal = 0 := by
    apply normal_of_repeated
    rcases eq_of_repeated he h with rfl | rfl | rfl
    · exact .inl rfl
    · exact .inr (.inl rfl)
    · exact .inr (.inr rfl)
  rw [faceNormal, triangle, hget]
  exact congrArg Except.ok hnormal

theorem Grown.vertexNormal_eq (h : Grown m m') (hm : m.Indexed) (hidle : Idle m m')
    (hv : v < m.vertices.size)
    (hlast : m'.containing v = m.containing v ∨ m'.faceNormal m.faces.size = .ok 0) :
    m'.vertexNormal v = m.vertexNormal v := by
  have hsum : (m.containing v).foldlM (fun sum f => do return sum + (← m'.faceNormal f))
      (0 : Vec3 ℝ) =
        (m.containing v).foldlM (fun sum f => do return sum + (← m.faceNormal f)) 0 := by
    refine foldlM_congr (fun sum f hf => ?_) _
    rw [hidle.faceNormal_eq (lt_of_mem_corners ((hm.listed v f).mp hf))]
  have hsum' : (m'.containing v).foldlM (fun sum f => do return sum + (← m'.faceNormal f))
      (0 : Vec3 ℝ) =
        (m.containing v).foldlM (fun sum f => do return sum + (← m.faceNormal f)) 0 := by
    rcases h.containing v hv with he | he
    · rw [he, hsum]
    · rcases hlast with hsame | hzero
      · rw [hsame, hsum]
      · rw [he, List.foldlM_append, hsum]
        refine (bind_congr fun sum => ?_).trans (bind_pure _)
        rw [List.foldlM_cons, hzero]
        exact congrArg Except.ok (add_zero_vector sum)
  rw [vertexNormal, vertexNormal, hsum', requireVertex_eq_ok.mpr hv,
    requireVertex_eq_ok.mpr (Nat.lt_of_lt_of_le hv h.size)]

theorem Grown.unbent_of_repeated (h : Grown m m') (hm : m.Indexed)
    (hrepeated : ¬ (m'.corners m.faces.size).Nodup) : Unbent m m' := by
  have hidle := h.idle hm (isDegenerate_of_repeated h.length_corners hrepeated)
  have hzero := faceNormal_of_repeated h.length_corners hrepeated
  exact fun f v hv => h.vertexNormal_eq hm hidle (hm.existing f v hv) (.inr hzero)

/-- A degenerate triangle over a surface that it does not bend, with one normal at its corners. -/
structure Level (m m' : Mesh ℝ) (f : FaceId) : Prop where
  degenerate : m'.isDegenerate f degenerateTolerance = true
  normal : ∃ n, ∀ v ∈ m'.corners f, m'.vertexNormal v = .ok n
  unbent : ∀ v ∈ m'.corners f, v < m.vertices.size → m'.vertexNormal v = m.vertexNormal v

theorem Level.flat (h : Level m m' f) : Flat m' f := .inr ⟨h.degenerate, h.normal⟩

theorem Level.leaves_unbent (h : Level m m' m.faces.size) (hgrown : Grown m m') (hm : m.Indexed)
    (hm' : m'.Indexed) : Unbent m m' := by
  intro f v hv
  have hlt := hm.existing f v hv
  by_cases hcorner : v ∈ m'.corners m.faces.size
  · exact h.unbent v hcorner hlt
  · refine hgrown.vertexNormal_eq hm (hgrown.idle hm h.degenerate) hlt (.inl ?_)
    rcases hgrown.containing v hlt with he | he
    · exact he
    · refine (hcorner ((hm'.listed v _).mp ?_)).elim
      rw [he]
      exact List.mem_append_right _ List.mem_cons_self

theorem level_addPolygon {a b c : Vec3 ℝ} (m : Mesh ℝ)
    (hclose : (⟨a, b, c⟩ : Triangle ℝ).hasCoincidentCorners degenerateTolerance = true) :
    Level m (m.addPolygon [a, b, c]).2 m.faces.size := by
  have hcorners : (m.addPolygon [a, b, c]).2.corners m.faces.size =
      [m.vertices.size, m.vertices.size + 1, m.vertices.size + 2] :=
    m.corners_addPolygon [a, b, c]
  have hnew {v : VertexId} (hv : v ∈ (m.addPolygon [a, b, c]).2.corners m.faces.size) :
      m.vertices.size ≤ v ∧ v < m.vertices.size + 3 := by
    rw [hcorners] at hv
    simp only [List.mem_cons, List.not_mem_nil, or_false] at hv
    rcases hv with rfl | rfl | rfl <;> simp
  refine ⟨?_, ?_, fun v hv hlt => absurd hlt (Nat.not_lt.mpr (hnew hv).1)⟩
  · rw [isDegenerate, hcorners]
    simpa [triangleOf?, position_addPolygon] using hclose
  · obtain ⟨n, hn⟩ := faceNormal_ok (m := (m.addPolygon [a, b, c]).2) (f := m.faces.size)
      (by rw [hcorners]; rfl)
    refine ⟨(0 + n).normalizeOrZero, fun v hv => ?_⟩
    obtain ⟨hle, hlt⟩ := hnew hv
    have hcontaining : (m.addPolygon [a, b, c]).2.containing v = [m.faces.size] := by
      have hpoint : v - m.vertices.size < [a, b, c].length := Nat.sub_lt_left_of_lt_add hle hlt
      rw [containing_eq_map, vertices_addPolygon, if_neg (Nat.not_lt.mpr hle),
        List.getElem?_eq_getElem hpoint]
      rfl
    have hexists : v < (m.addPolygon [a, b, c]).2.vertices.size := by
      rw [addPolygon_eq, size_pushFace, size_addVertices]
      exact hlt
    rw [vertexNormal, requireVertex_eq_ok.mpr hexists, hcontaining, List.foldlM_cons, hn]
    rfl

end Mesh

namespace Surface

open Mesh

theorem extrapolate_eq {α : Type} [Scalar α] {surface : Surface α} {front back : α}
    {frontCopy backCopy skirt : Mesh α}
    (hfront : surface.merged.2.offsetAlongNormals surface.merged.1 front = .ok frontCopy)
    (hback : surface.merged.2.offsetAlongNormals surface.merged.1 back = .ok backCopy)
    (htriangular : ∀ f < backCopy.faces.size, (backCopy.corners f).length = 3)
    (hskirt : surface.merged.2.edgeSurface front back = .ok skirt) :
    surface.extrapolate front back = .ok ((frontCopy.append
      { backCopy with faces := backCopy.faces.map turned }).append skirt) := by
  unfold extrapolate
  generalize surface.merged = merged at *
  obtain ⟨kept, m⟩ := merged
  dsimp only at *
  rw [hfront, hback, hskirt]
  change (backCopy.invertAll >>= fun inverted => .ok ((frontCopy.append inverted).append skirt)) = _
  rw [invertAll_eq htriangular]
  rfl

theorem extrapolatedArea_eq {α : Type} [Scalar α] {surface : Surface α} {front back : α}
    {frontCopy skirt : Mesh α}
    (hfront : surface.merged.2.offsetAlongNormals surface.merged.1 front = .ok frontCopy)
    (hskirt : surface.merged.2.edgeSurface front back = .ok skirt) :
    surface.extrapolatedArea front back =
      (do return (← frontCopy.shellArea) + (← skirt.shellArea)) := by
  unfold extrapolatedArea
  generalize surface.merged = merged at *
  obtain ⟨kept, m⟩ := merged
  dsimp only at *
  rw [hfront, hskirt]
  rfl

variable {surface other : Surface ℝ}

/-- A triangle more is inert if it bends nothing and is flat. -/
theorem extrapolate_of_grown (h : ∀ p ∈ surface, p.length = 3) (h' : ∀ p ∈ other, p.length = 3)
    (hgrown : Grown surface.merged.2 other.merged.2)
    (hunbent : Unbent surface.merged.2 other.merged.2)
    (hflat : Flat other.merged.2 surface.merged.2.faces.size) (front back : ℝ) :
    ∃ shell shell' area, surface.extrapolate front back = .ok shell ∧
      other.extrapolate front back = .ok shell' ∧ shell'.triangles = shell.triangles ∧
      surface.extrapolatedArea front back = .ok area ∧
      other.extrapolatedArea front back = .ok area := by
  have hm := merged_triangles h
  have hm' := merged_triangles h'
  have hidle := hgrown.idle hm.indexed (hflat.degenerate hgrown.length_corners)
  have hskirt' := hgrown.edgeSurface_eq hm.indexed hidle hunbent front back
  obtain ⟨skirt, hskirt, -⟩ := yields_iff.mp (hm.edgeSurface_yields front back)
  obtain ⟨frontCopy, hfront, hfrontCopy⟩ := yields_iff.mp (hm.copies_yields front)
  obtain ⟨frontCopy', hfront', hfrontCopy'⟩ := yields_iff.mp (hm'.copies_yields front)
  obtain ⟨backCopy, hback, hbackCopy⟩ := yields_iff.mp (hm.copies_yields back)
  obtain ⟨backCopy', hback', hbackCopy'⟩ := yields_iff.mp (hm'.copies_yields back)
  have hfrontIdle := hgrown.idle_copies hm hm' hunbent hflat hfrontCopy hfrontCopy'
  have hbackIdle := hgrown.idle_copies hm hm' hunbent hflat hbackCopy hbackCopy'
  obtain ⟨area, harea, -⟩ := yields_iff.mp (triangles_extrapolatedArea h front back)
  refine ⟨_, _, area, extrapolate_eq hfront hback (hbackCopy.triangular hm) hskirt,
    extrapolate_eq hfront' hback' (hbackCopy'.triangular hm') (hskirt'.trans hskirt), ?_, harea, ?_⟩
  · rw [triangles_append (hfrontCopy'.indexed.append hbackCopy'.indexed.turned),
      triangles_append hfrontCopy'.indexed, hfrontIdle.triangles_eq, hbackIdle.turned.triangles_eq,
      ← triangles_append hfrontCopy.indexed,
      ← triangles_append (hfrontCopy.indexed.append hbackCopy.indexed.turned)]
  · rw [extrapolatedArea_eq hfront' (hskirt'.trans hskirt), hfrontIdle.shellArea_eq,
      ← extrapolatedArea_eq hfront hskirt, harea]

theorem size_merged (surface : Surface ℝ) : surface.merged.2.faces.size = surface.length := by
  rw [merged, size_faces_mergeVertices, size_faces_ofPolygons]

theorem merged_append {p : List (Vec3 ℝ)} (h : ∀ t ∈ surface, t.length = 3) :
    (surface ++ [p]).merged = mergeFace mergeTolerance
      (surface.merged.1, (surface.merged.2.addPolygon p).2) surface.length := by
  rw [merged, ofPolygons_concat, mergeVertices_addPolygon (ofPolygons_faces h).1, ← size_merged,
    merged, size_faces_mergeVertices]

theorem grown_append {p : List (Vec3 ℝ)} (h : ∀ t ∈ surface, t.length = 3) (hp : p.length = 3) :
    Grown surface.merged.2 (surface ++ [p]).merged.2 := by
  have hm := merged_triangles h
  rw [merged_append h, ← size_merged]
  exact (Grown.addPolygon _ hp).mergeFace hm.indexed

/-- A triangle with two corners close together leaves the shell and its area as they are, whatever
the offsets, if corners of it have merged, or it lies apart from the surface, or it is level. -/
theorem extrapolate_append_degenerate {t : Triangle ℝ} (h : ∀ p ∈ surface, p.length = 3)
    (hclose : t.hasCoincidentCorners degenerateTolerance = true)
    (hlies : ¬ ((surface ++ [t.toList]).merged.2.corners surface.length).Nodup ∨
      (∀ u ∈ surface.merged.1, ∀ p ∈ t.toList,
        ¬ (surface.merged.2.position u - p).length < mergeTolerance) ∨
      Level surface.merged.2 (surface ++ [t.toList]).merged.2 surface.length)
    (front back : ℝ) :
    ∃ shell shell' area, surface.extrapolate front back = .ok shell ∧
      (surface ++ [t.toList]).extrapolate front back = .ok shell' ∧
      Tessellation.ofMesh shell' = Tessellation.ofMesh shell ∧
      surface.extrapolatedArea front back = .ok area ∧
      (surface ++ [t.toList]).extrapolatedArea front back = .ok area := by
  have h' : ∀ p ∈ surface ++ [t.toList], p.length = 3 := by
    simpa [or_imp, forall_and, Triangle.toList] using h
  have hm := merged_triangles h
  have hm' := merged_triangles h'
  have hgrown := grown_append h (p := t.toList) rfl
  have hsize := size_merged surface
  rw [← hsize] at hlies
  -- a triangle apart from the surface has merged with itself, or is level over its own vertices
  have hinert : ¬ ((surface ++ [t.toList]).merged.2.corners
      surface.merged.2.faces.size).Nodup ∨
        Level surface.merged.2 (surface ++ [t.toList]).merged.2 surface.merged.2.faces.size := by
    rcases hlies with hrepeated | hapart | hlevel
    · exact .inl hrepeated
    · have hmerged := mergeFace_apart hm.kept_existing rfl hapart
      rw [hsize, ← merged_append h, ← hsize] at hmerged
      refine hmerged.imp_right fun he => ?_
      rw [he]
      exact level_addPolygon _ hclose
    · exact .inr hlevel
  have hunbent : Unbent surface.merged.2 (surface ++ [t.toList]).merged.2 :=
    hinert.elim (hgrown.unbent_of_repeated hm.indexed) fun hlevel =>
      hlevel.leaves_unbent hgrown hm.indexed hm'.indexed
  obtain ⟨shell, shell', area, hshell, hshell', htriangles, harea, harea'⟩ :=
    extrapolate_of_grown h h' hgrown hunbent (hinert.elim .inl Level.flat) front back
  refine ⟨shell, shell', area, hshell, hshell', ?_, harea, harea'⟩
  rw [Tessellation.ofMesh, htriangles, Tessellation.ofMesh]

noncomputable def sliver : Triangle ℝ := ⟨⟨5, 5, 0⟩, ⟨5, 5, 5e-8⟩, ⟨7, 5, 0⟩⟩

theorem extrapolate_append_sliver :
    ∃ shell shell' area, unitTriangle.extrapolate 1 (-1) = .ok shell ∧
      (unitTriangle ++ [sliver.toList]).extrapolate 1 (-1) = .ok shell' ∧
      Tessellation.ofMesh shell' = Tessellation.ofMesh shell ∧
      unitTriangle.extrapolatedArea 1 (-1) = .ok area ∧
      (unitTriangle ++ [sliver.toList]).extrapolatedArea 1 (-1) = .ok area := by
  have hshort : (sliver.a - sliver.b).length < degenerateTolerance := by
    rw [Vec3.length, lengthSq_sub]
    refine (Real.sqrt_lt' degenerateTolerance_pos).mpr ?_
    norm_num [sliver, degenerateTolerance]
  have ht : (mergeTolerance : ℝ) ≤ 1 := by norm_num [mergeTolerance]
  have h0 : (ofPolygons unitTriangle).position 0 = ⟨0, 0, 0⟩ := rfl
  have h1 : (ofPolygons unitTriangle).position 1 = ⟨1, 0, 0⟩ := rfl
  have h2 : (ofPolygons unitTriangle).position 2 = ⟨0, 1, 0⟩ := rfl
  refine extrapolate_append_degenerate (by simp [unitTriangle])
    (by simp [Triangle.hasCoincidentCorners, hshort]) (.inr (.inl ?_)) 1 (-1)
  rw [merged_unitTriangle]
  simp only [Triangle.toList, List.forall_mem_cons, List.not_mem_nil, false_imp_iff, implies_true,
    and_true, h0, h1, h2]
  refine ⟨⟨?_, ?_, ?_⟩, ⟨?_, ?_, ?_⟩, ?_, ?_, ?_⟩ <;> refine not_close ht ?_ <;>
    norm_num [sliver, lengthSq_sub]

end Surface

end Arbor
