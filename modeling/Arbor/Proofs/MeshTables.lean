import Arbor.Mesh.Merge
import Mathlib.Data.List.Nodup

namespace Arbor.Mesh

variable {α : Type}

section Views

variable [Scalar α] (m : Mesh α) (f v j : Nat) (p : Vec3 α) (change : Vertex α → Vertex α)

theorem position_eq_map : m.position v = ((m.vertices[v]?).map Vertex.position).getD 0 := by
  rw [position]
  cases m.vertices[v]? <;> rfl

omit [Scalar α] in
theorem containing_eq_map : m.containing v = ((m.vertices[v]?).map Vertex.containing).getD [] := by
  rw [containing]
  cases m.vertices[v]? <;> rfl

omit [Scalar α]

theorem corners_of_le (h : m.faces.size ≤ f) : m.corners f = [] := by
  simp [corners, Array.getElem?_eq_none h]

theorem corners_eq {m : Mesh α} {f : FaceId} {corners : List VertexId}
    (h : m.faces[f]? = some corners) : m.corners f = corners := by
  rw [Mesh.corners, h, Option.getD_some]

theorem containing_of_le (h : m.vertices.size ≤ v) : m.containing v = [] := by
  simp [containing, Array.getElem?_eq_none h]

@[simp]
theorem size_modifyVertex : (m.modifyVertex v change).vertices.size = m.vertices.size := by
  simp [modifyVertex]

@[simp]
theorem faces_modifyVertex : (m.modifyVertex v change).faces = m.faces := rfl

theorem vertices_modifyVertex : (m.modifyVertex v change).vertices[j]? =
    if j = v then (m.vertices[j]?).map change else m.vertices[j]? := by
  simp [modifyVertex, Array.getElem?_modify, eq_comm]

@[simp]
theorem size_register : (m.register f v).vertices.size = m.vertices.size := size_modifyVertex ..

@[simp]
theorem faces_register : (m.register f v).faces = m.faces := rfl

@[simp]
theorem size_deregister : (m.deregister f v).vertices.size = m.vertices.size :=
  size_modifyVertex ..

@[simp]
theorem faces_deregister : (m.deregister f v).faces = m.faces := rfl

@[simp]
theorem size_moveVertex : (m.moveVertex v p).vertices.size = m.vertices.size :=
  size_modifyVertex ..

@[simp]
theorem faces_moveVertex : (m.moveVertex v p).faces = m.faces := rfl

theorem containing_modifyVertex (h : ∀ x, (change x).containing = x.containing) :
    (m.modifyVertex v change).containing j = m.containing j := by
  rw [containing_eq_map, containing_eq_map, vertices_modifyVertex]
  split
  · rw [Option.map_map]
    congr 2
    funext x
    exact h x
  · rfl

theorem containing_register : (m.register f v).containing j =
    if j = v ∧ v < m.vertices.size ∧ f ∉ m.containing v then m.containing j ++ [f]
    else m.containing j := by
  rw [register, containing_eq_map, containing_eq_map, containing_eq_map, vertices_modifyVertex]
  by_cases hj : j = v
  · subst j
    by_cases hv : v < m.vertices.size
    · by_cases hf : f ∈ m.vertices[v].containing <;> simp [hv, hf]
    · simp [hv]
  · simp [hj]

theorem containing_deregister : (m.deregister f v).containing j =
    if j = v then (m.containing j).filter (· != f) else m.containing j := by
  rw [deregister, containing_eq_map, containing_eq_map, vertices_modifyVertex]
  by_cases hj : j = v
  · subst j
    cases m.vertices[v]? <;> simp
  · simp [hj]

theorem mem_containing_register (g : FaceId) (h : v < m.vertices.size) :
    g ∈ (m.register f v).containing j ↔ g ∈ m.containing j ∨ g = f ∧ j = v := by
  rw [containing_register]
  by_cases hj : j = v
  · by_cases hf : f ∈ m.containing v
    · have hmem (he : g = f) : g ∈ m.containing v := he ▸ hf
      simpa [hj, hf] using hmem
    · simp [hj, h, hf]
  · simp [hj]

theorem nodup_containing_register (h : (m.containing j).Nodup) :
    ((m.register f v).containing j).Nodup := by
  rw [containing_register]
  split
  next hnew =>
    obtain ⟨rfl, -, hf⟩ := hnew
    simpa using h.concat hf
  next => exact h

theorem mem_containing_deregister (g : FaceId) :
    g ∈ (m.deregister f v).containing j ↔ g ∈ m.containing j ∧ ¬ (g = f ∧ j = v) := by
  rw [containing_deregister]
  by_cases hj : j = v <;> simp [hj]

theorem nodup_containing_deregister (h : (m.containing j).Nodup) :
    ((m.deregister f v).containing j).Nodup := by
  rw [containing_deregister]
  split
  · exact h.filter _
  · exact h

@[simp]
theorem containing_moveVertex : (m.moveVertex v p).containing j = m.containing j :=
  m.containing_modifyVertex v j _ fun _ => rfl

variable [Scalar α]

theorem position_modifyVertex (h : ∀ x, (change x).position = x.position) :
    (m.modifyVertex v change).position j = m.position j := by
  rw [position_eq_map, position_eq_map, vertices_modifyVertex]
  split
  · rw [Option.map_map]
    congr 2
    funext x
    exact h x
  · rfl

@[simp]
theorem position_register : (m.register f v).position j = m.position j := by
  apply position_modifyVertex
  intro x
  split <;> rfl

@[simp]
theorem position_deregister : (m.deregister f v).position j = m.position j :=
  m.position_modifyVertex v j _ fun _ => rfl

theorem position_moveVertex (hv : v < m.vertices.size) :
    (m.moveVertex v p).position j = if j = v then p else m.position j := by
  rw [moveVertex, position_eq_map, position_eq_map, vertices_modifyVertex]
  by_cases hj : j = v
  · subst j
    simp [hv]
  · simp [hj]

end Views

theorem size_foldl_moveVertex (m : Mesh α) (moves : List (VertexId × Vec3 α)) :
    (moves.foldl (fun m (v, p) => m.moveVertex v p) m).vertices.size = m.vertices.size := by
  induction moves generalizing m with
  | nil => rfl
  | cons move moves ih => rw [List.foldl_cons, ih, size_moveVertex]

theorem faces_foldl_moveVertex (m : Mesh α) (moves : List (VertexId × Vec3 α)) :
    (moves.foldl (fun m (v, p) => m.moveVertex v p) m).faces = m.faces := by
  induction moves generalizing m with
  | nil => rfl
  | cons move moves ih => rw [List.foldl_cons, ih, faces_moveVertex]

section Additions

variable (m : Mesh α) (f v j : Nat) (corners : List VertexId)

@[simp]
theorem size_foldl_register :
    (corners.foldl (fun m v => m.register f v) m).vertices.size = m.vertices.size := by
  induction corners generalizing m with
  | nil => rfl
  | cons v corners ih => rw [List.foldl_cons, ih, size_register]

@[simp]
theorem faces_foldl_register :
    (corners.foldl (fun m v => m.register f v) m).faces = m.faces := by
  induction corners generalizing m with
  | nil => rfl
  | cons v corners ih => rw [List.foldl_cons, ih, faces_register]

theorem mem_containing_foldl_register (g : FaceId) (h : ∀ v ∈ corners, v < m.vertices.size) :
    g ∈ (corners.foldl (fun m v => m.register f v) m).containing j ↔
      g ∈ m.containing j ∨ g = f ∧ j ∈ corners := by
  induction corners generalizing m with
  | nil => simp
  | cons v corners ih =>
      rw [List.foldl_cons, ih (m.register f v) fun w hw => by
        rw [size_register]
        exact h w (List.mem_cons_of_mem _ hw)]
      rw [mem_containing_register _ _ _ _ _ (h v List.mem_cons_self), List.mem_cons]
      tauto

theorem nodup_containing_foldl_register (h : (m.containing j).Nodup) :
    ((corners.foldl (fun m v => m.register f v) m).containing j).Nodup := by
  induction corners generalizing m with
  | nil => exact h
  | cons v corners ih => exact ih _ (m.nodup_containing_register f v j h)

@[simp]
theorem fst_pushFace : (m.pushFace corners).1 = m.faces.size := rfl

@[simp]
theorem size_pushFace : (m.pushFace corners).2.vertices.size = m.vertices.size := by
  simp [pushFace]

@[simp]
theorem faces_pushFace : (m.pushFace corners).2.faces = m.faces.push corners := by
  simp [pushFace]

theorem mem_containing_pushFace (g : FaceId) (h : ∀ v ∈ corners, v < m.vertices.size) :
    g ∈ (m.pushFace corners).2.containing j ↔
      g ∈ m.containing j ∨ g = m.faces.size ∧ j ∈ corners :=
  mem_containing_foldl_register { m with faces := m.faces.push corners } _ j corners g h

theorem nodup_containing_pushFace (h : (m.containing j).Nodup) :
    ((m.pushFace corners).2.containing j).Nodup :=
  nodup_containing_foldl_register { m with faces := m.faces.push corners } _ j corners h

def addVertices (m : Mesh α) (points : List (Vec3 α)) : Mesh α :=
  { m with vertices := m.vertices ++ (points.map fun p => { position := p }).toArray }

theorem addVertex_eq (p : Vec3 α) : (m.addVertex p).2 = m.addVertices [p] := by
  simp [addVertex, addVertices]

theorem foldl_addVertex {β : Type} (xs : List β) (p : β → Vec3 α) :
    xs.foldl (fun m x => (m.addVertex (p x)).2) m = m.addVertices (xs.map p) := by
  induction xs generalizing m with
  | nil => simp [addVertices]
  | cons x xs ih =>
      rw [List.foldl_cons, ih, addVertices, addVertices, Mesh.mk.injEq]
      refine ⟨Array.ext' ?_, rfl⟩
      simp [addVertex]

@[simp]
theorem size_addVertices (points : List (Vec3 α)) :
    (m.addVertices points).vertices.size = m.vertices.size + points.length := by
  simp [addVertices]

@[simp]
theorem faces_addVertices (points : List (Vec3 α)) : (m.addVertices points).faces = m.faces := rfl

@[simp]
theorem containing_addVertices (points : List (Vec3 α)) :
    (m.addVertices points).containing j = m.containing j := by
  rcases Nat.lt_or_ge j m.vertices.size with hj | hj
  · rw [containing_eq_map, containing_eq_map, addVertices, Array.getElem?_append_left hj]
  · rw [m.containing_of_le j hj, containing_eq_map, addVertices, Array.getElem?_append_right hj,
      List.getElem?_toArray, List.getElem?_map]
    cases points[j - m.vertices.size]? <;> rfl

@[simp]
theorem position_foldl_register [Scalar α] :
    (corners.foldl (fun m v => m.register f v) m).position j = m.position j := by
  induction corners generalizing m with
  | nil => rfl
  | cons v corners ih => rw [List.foldl_cons, ih, position_register]

@[simp]
theorem position_pushFace [Scalar α] : (m.pushFace corners).2.position j = m.position j :=
  position_foldl_register ..

theorem position_addVertices [Scalar α] (points : List (Vec3 α)) :
    (m.addVertices points).position j =
    if j < m.vertices.size then m.position j else (points[j - m.vertices.size]?).getD 0 := by
  rw [position_eq_map, position_eq_map, addVertices]
  split
  next hj => rw [Array.getElem?_append_left hj]
  next hj =>
    rw [Array.getElem?_append_right (Nat.not_lt.mp hj), List.getElem?_toArray, List.getElem?_map,
      Option.map_map]
    cases points[j - m.vertices.size]? <;> rfl

theorem addPolygon_eq (points : List (Vec3 α)) :
    m.addPolygon points =
      (m.addVertices points).pushFace (List.range' m.vertices.size points.length) := by
  have hplaced : points.foldl (fun m p => (m.addVertex p).2) m = m.addVertices points := by
    simpa using foldl_addVertex m points id
  rw [addPolygon, hplaced]

section Folds

variable {β : Type} (xs : List β) (face : β → List VertexId)

theorem size_foldl_pushFace :
    (xs.foldl (fun m x => (m.pushFace (face x)).2) m).vertices.size = m.vertices.size := by
  induction xs generalizing m with
  | nil => rfl
  | cons x xs ih => rw [List.foldl_cons, ih, size_pushFace]

theorem faces_foldl_pushFace :
    (xs.foldl (fun m x => (m.pushFace (face x)).2) m).faces = m.faces ++ (xs.map face).toArray := by
  induction xs generalizing m with
  | nil => simp
  | cons x xs ih =>
      rw [List.foldl_cons, ih, faces_pushFace]
      apply Array.ext'
      simp

theorem position_foldl_pushFace [Scalar α] :
    (xs.foldl (fun m x => (m.pushFace (face x)).2) m).position j = m.position j := by
  induction xs generalizing m with
  | nil => rfl
  | cons x xs ih => rw [List.foldl_cons, ih, position_pushFace]

end Folds

theorem append_eq (other : Mesh α) :
    m.append other = other.faces.toList.foldl
      (fun n corners => (n.pushFace (corners.map (· + m.vertices.size))).2)
      (m.addVertices (other.vertices.toList.map Vertex.position)) := by
  have hplaced : other.vertices.foldl (fun m x => (m.addVertex x.position).2) m =
      m.addVertices (other.vertices.toList.map Vertex.position) := by
    rw [← Array.foldl_toList]
    exact foldl_addVertex m other.vertices.toList Vertex.position
  rw [append, hplaced, ← Array.foldl_toList]

@[simp]
theorem size_append (other : Mesh α) :
    (m.append other).vertices.size = m.vertices.size + other.vertices.size := by
  rw [append_eq, size_foldl_pushFace, size_addVertices, List.length_map, Array.length_toList]

theorem faces_append (other : Mesh α) : (m.append other).faces.toList =
    m.faces.toList ++ other.faces.toList.map (List.map (· + m.vertices.size)) := by
  rw [append_eq, faces_foldl_pushFace]
  simp

theorem position_append [Scalar α] (other : Mesh α) : (m.append other).position j =
    if j < m.vertices.size then m.position j else other.position (j - m.vertices.size) := by
  rw [append_eq, position_foldl_pushFace, position_addVertices, List.getElem?_map,
    Array.getElem?_toList, ← position_eq_map]

end Additions

section Relabelling

variable (m : Mesh α) (f old new j : Nat)

@[simp]
theorem size_relabel : (m.relabel f old new).vertices.size = m.vertices.size := by
  simp [relabel]

@[simp]
theorem size_faces_relabel : (m.relabel f old new).faces.size = m.faces.size := by
  simp [relabel]

theorem corners_relabel : (m.relabel f old new).corners j =
    if j = f then (m.corners f).map fun v => if v = old then new else v else m.corners j := by
  simp only [relabel, corners, faces_register, faces_deregister, Array.getElem?_modify]
  by_cases hj : j = f
  · subst j
    cases m.faces[f]? <;> simp
  · simp [hj, Ne.symm hj]

theorem mem_containing_relabel (g : FaceId) (hnew : new < m.vertices.size) :
    g ∈ (m.relabel f old new).containing j ↔
      g ∈ m.containing j ∧ ¬ (g = f ∧ j = old) ∨ g = f ∧ j = new := by
  have hsame : (m.relabel f old new).containing j =
      ((m.deregister f old).register f new).containing j := rfl
  rw [hsame, mem_containing_register _ _ _ _ _ (by rwa [size_deregister]),
    mem_containing_deregister]

theorem nodup_containing_relabel (h : (m.containing j).Nodup) :
    ((m.relabel f old new).containing j).Nodup :=
  nodup_containing_register _ f new j (m.nodup_containing_deregister f old j h)

variable [Scalar α]

@[simp]
theorem position_relabel : (m.relabel f old new).position j = m.position j := by
  have hsame : (m.relabel f old new).position j =
      ((m.deregister f old).register f new).position j := rfl
  rw [hsame, position_register, position_deregister]

end Relabelling

/-- A visit keeps the corner, or puts a kept vertex close to it in its place. -/
theorem mergeCorner_cases [Scalar α] (tolerance : α) (f : FaceId)
    (state : List VertexId × Mesh α) (corner : Nat) :
    (∀ v, (state.2.corners f)[corner]? = some v → v ∈ state.1) ∧
        mergeCorner tolerance f state corner = state ∨
      (∃ v, (state.2.corners f)[corner]? = some v ∧
        mergeCorner tolerance f state corner = (state.1 ++ [v], state.2)) ∨
      ∃ v u, (state.2.corners f)[corner]? = some v ∧ u ∈ state.1 ∧
        (state.2.position u - state.2.position v).length < tolerance ∧
        mergeCorner tolerance f state corner = (state.1, state.2.relabel f v u) := by
  obtain ⟨kept, m⟩ := state
  unfold mergeCorner
  dsimp only
  split
  next hnone => exact .inl ⟨fun v hv => by simp [hnone] at hv, rfl⟩
  next v hv =>
    split
    next u hu =>
      have hkept : u ∈ kept := List.mem_of_find?_eq_some hu
      split
      next huv => exact .inl ⟨fun w hw => by simp_all, rfl⟩
      next => exact .inr (.inr ⟨v, u, hv, hkept, by simpa using List.find?_some hu, rfl⟩)
    next => exact .inr (.inl ⟨v, hv, rfl⟩)

end Arbor.Mesh
