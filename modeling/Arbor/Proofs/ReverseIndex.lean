import Arbor.Proofs.MeshTables
import Arbor.Proofs.Outcomes
import Arbor.Scalar.Double

namespace Arbor.Mesh

variable {α : Type}

structure Indexed (m : Mesh α) : Prop where
  existing : ∀ f v, v ∈ m.corners f → v < m.vertices.size
  distinct : ∀ v, (m.containing v).Nodup
  listed : ∀ v f, f ∈ m.containing v ↔ v ∈ m.corners f

theorem corners_pushFace (m : Mesh α) (corners : List VertexId) (f : FaceId) :
    (m.pushFace corners).2.corners f = if f = m.faces.size then corners else m.corners f := by
  rw [Mesh.corners, faces_pushFace, Array.getElem?_push]
  split <;> rfl

namespace Indexed

variable {m other : Mesh α} {f v old new : Nat}

theorem empty : Indexed ({} : Mesh α) := by
  constructor <;> simp [corners, containing]

theorem congr {m' : Mesh α} (h : m.Indexed) (hsize : m.vertices.size ≤ m'.vertices.size)
    (hcontaining : ∀ v, m'.containing v = m.containing v)
    (hcorners : ∀ f v, v ∈ m'.corners f ↔ v ∈ m.corners f) : m'.Indexed := by
  constructor
  · intro f v hv
    exact Nat.lt_of_lt_of_le (h.existing f v ((hcorners f v).mp hv)) hsize
  · intro v
    rw [hcontaining]
    exact h.distinct v
  · intro v f
    rw [hcontaining, hcorners]
    exact h.listed v f

theorem addVertices (h : m.Indexed) (points : List (Vec3 α)) : (m.addVertices points).Indexed :=
  h.congr (by simp) (by simp) fun _ _ => Iff.rfl

theorem pushFace (h : m.Indexed) {corners : List VertexId}
    (hcorners : ∀ v ∈ corners, v < m.vertices.size) : (m.pushFace corners).2.Indexed := by
  constructor
  · intro f v hv
    rw [corners_pushFace] at hv
    rw [size_pushFace]
    split at hv
    · exact hcorners v hv
    · exact h.existing f v hv
  · exact fun v => m.nodup_containing_pushFace v corners (h.distinct v)
  · intro v f
    rw [mem_containing_pushFace m v corners f hcorners, corners_pushFace, h.listed]
    by_cases hf : f = m.faces.size
    · simp [hf, corners_of_le]
    · simp [hf]

theorem addPolygon (h : m.Indexed) (points : List (Vec3 α)) : (m.addPolygon points).2.Indexed := by
  rw [addPolygon_eq]
  refine (h.addVertices points).pushFace fun v hv => ?_
  simp only [List.mem_range'_1] at hv
  simpa using hv.2

theorem foldl_pushFace {β : Type} (h : m.Indexed) (xs : List β) (face : β → List VertexId)
    (hface : ∀ x ∈ xs, ∀ v ∈ face x, v < m.vertices.size) :
    (xs.foldl (fun m x => (m.pushFace (face x)).2) m).Indexed := by
  induction xs generalizing m with
  | nil => exact h
  | cons x xs ih =>
      refine ih (h.pushFace (hface x List.mem_cons_self)) fun y hy => ?_
      rw [size_pushFace]
      exact hface y (List.mem_cons_of_mem _ hy)

theorem append (h : m.Indexed) (hother : other.Indexed) : (m.append other).Indexed := by
  rw [append_eq]
  refine (h.addVertices _).foldl_pushFace _ _ fun corners hcorners v hv => ?_
  obtain ⟨w, hw, rfl⟩ := List.mem_map.mp hv
  obtain ⟨f, hf⟩ := List.mem_iff_getElem?.mp hcorners
  have hlt : w < other.vertices.size := by
    refine hother.existing f w ?_
    rwa [corners_eq (by rw [← Array.getElem?_toList, hf])]
  rw [size_addVertices, List.length_map, Array.length_toList, Nat.add_comm]
  exact Nat.add_lt_add_left hlt _

theorem moveVertex (h : m.Indexed) (v : VertexId) (p : Vec3 α) : (m.moveVertex v p).Indexed :=
  h.congr (by simp) (fun j => m.containing_moveVertex v j p) fun _ _ => Iff.rfl

theorem invert (h : m.Indexed) {m' : Mesh α} (hm : m.invert f = .ok m') : m'.Indexed := by
  unfold Mesh.invert at hm
  split at hm
  · cases hm
  next a b c hf =>
    cases hm
    refine h.congr (Nat.le_refl _) (fun _ => rfl) fun g v => ?_
    obtain ⟨hlt, he⟩ := Array.getElem?_eq_some_iff.mp hf
    by_cases hg : g = f
    · subst g
      simp [corners, hlt, he, or_comm]
    · simp [corners, Ne.symm hg]
  · cases hm

theorem relabel (h : m.Indexed) (hold : old ∈ m.corners f) (hnew : new < m.vertices.size) :
    (m.relabel f old new).Indexed := by
  have hmem (v : VertexId) : v ∈ (m.corners f).map (fun w => if w = old then new else w) ↔
      v ∈ m.corners f ∧ v ≠ old ∨ v = new := by
    constructor
    · intro hv
      obtain ⟨w, hw, rfl⟩ := List.mem_map.mp hv
      by_cases hwo : w = old
      · simp [hwo]
      · simp [hwo, hw]
    · rintro (⟨hv, hne⟩ | rfl)
      · exact List.mem_map.mpr ⟨v, hv, if_neg hne⟩
      · exact List.mem_map.mpr ⟨old, hold, if_pos rfl⟩
  constructor
  · intro g v hv
    rw [size_relabel]
    rw [corners_relabel] at hv
    split at hv
    · rcases (hmem v).mp hv with ⟨hv, -⟩ | rfl
      · exact h.existing f v hv
      · exact hnew
    · exact h.existing g v hv
  · exact fun v => m.nodup_containing_relabel f old new v (h.distinct v)
  · intro v g
    rw [mem_containing_relabel _ _ _ _ _ _ hnew, h.listed, corners_relabel]
    by_cases hg : g = f
    · subst g
      simp [hmem]
    · simp [hg]

structure Merging (state : List VertexId × Mesh α) : Prop where
  indexed : state.2.Indexed
  kept : ∀ u ∈ state.1, u < state.2.vertices.size

variable [Scalar α]

theorem Merging.corner {state : List VertexId × Mesh α} (h : Merging state) (tolerance : α)
    (f : FaceId) (corner : Nat) : Merging (mergeCorner tolerance f state corner) := by
  rcases mergeCorner_cases tolerance f state corner with
    ⟨-, he⟩ | ⟨v, hv, he⟩ | ⟨v, u, hv, hu, -, he⟩
  · rw [he]
    exact h
  · rw [he]
    refine ⟨h.indexed, ?_⟩
    intro u hu
    rcases List.mem_append.mp hu with hu | hu
    · exact h.kept u hu
    · obtain rfl := List.mem_singleton.mp hu
      exact h.indexed.existing f u (List.mem_of_getElem? hv)
  · rw [he]
    refine ⟨h.indexed.relabel (List.mem_of_getElem? hv) (h.kept u hu), ?_⟩
    simpa using h.kept

theorem Merging.face {state : List VertexId × Mesh α} (h : Merging state) (tolerance : α)
    (f : FaceId) : Merging (mergeFace tolerance state f) :=
  List.foldlRecOn _ _ h fun _ h corner _ => h.corner tolerance f corner

omit [Scalar α] in
theorem foldl_moveVertex (h : m.Indexed) (moves : List (VertexId × Vec3 α)) :
    (moves.foldl (fun m (v, p) => m.moveVertex v p) m).Indexed :=
  List.foldlRecOn _ _ h fun _ h move _ => h.moveVertex move.1 move.2

theorem merging (h : m.Indexed) (tolerance : α) : Merging (m.mergeVertices tolerance) :=
  List.foldlRecOn _ _ ⟨h, nofun⟩ fun _ h f _ => h.face tolerance f

end Indexed

theorem requireVertex_eq_ok {m : Mesh α} {v : VertexId} :
    m.requireVertex v = .ok () ↔ v < m.vertices.size := by
  unfold requireVertex
  split <;> simp_all

theorem forM_requireVertex {m : Mesh α} {vs : List VertexId} :
    vs.forM m.requireVertex = .ok () ↔ ∀ v ∈ vs, v < m.vertices.size := by
  induction vs with
  | nil => exact ⟨fun _ => List.forall_mem_nil _, fun _ => rfl⟩
  | cons v vs ih =>
      change (m.requireVertex v >>= fun _ => vs.forM m.requireVertex) = _ ↔ _
      rw [bind_eq_ok, List.forall_mem_cons, ← ih, ← requireVertex_eq_ok]
      refine ⟨?_, fun h => ⟨(), h⟩⟩
      rintro ⟨_, h⟩
      exact h

theorem addFace_ok {m m' : Mesh α} {corners : List VertexId} {f : FaceId}
    (h : m.addFace corners = .ok (f, m')) :
    (∀ v ∈ corners, v < m.vertices.size) ∧ m' = (m.pushFace corners).2 := by
  obtain ⟨_, hcorners, hm⟩ := bind_eq_ok.mp h
  cases hm
  exact ⟨forM_requireVertex.mp hcorners, rfl⟩

theorem setPosition_ok {m m' : Mesh α} {v : VertexId} {p : Vec3 α}
    (h : m.setPosition v p = .ok m') : m' = m.moveVertex v p := by
  obtain ⟨_, -, hm⟩ := bind_eq_ok.mp h
  cases hm
  rfl

theorem replaceVertex_ok {m m' : Mesh α} {f : FaceId} {old new : VertexId}
    (h : m.replaceVertex f old new = .ok m') :
    new < m.vertices.size ∧ m' = m.relabel f old new := by
  obtain ⟨_, -, h⟩ := bind_eq_ok.mp h
  obtain ⟨_, hnew, h⟩ := bind_eq_ok.mp h
  obtain ⟨_, -, hm⟩ := bind_eq_ok.mp h
  cases hm
  exact ⟨requireVertex_eq_ok.mp hnew, rfl⟩

variable [Scalar α]

theorem offsetAlongNormals_ok {m m' : Mesh α} {vs : List VertexId} {distance : α}
    (h : m.offsetAlongNormals vs distance = .ok m') :
    ∃ moves : List (VertexId × Vec3 α), m' = moves.foldl (fun m (v, p) => m.moveVertex v p) m := by
  obtain ⟨moves, -, hm⟩ := bind_eq_ok.mp h
  cases hm
  exact ⟨moves, rfl⟩

/-- The meshes that changes of meshes lead to, from the one without vertices. -/
inductive Built : Mesh α → Prop
  | empty : Built {}
  | addVertex (m : Mesh α) (p : Vec3 α) : Built m → Built (m.addVertex p).2
  | addFace (m m' : Mesh α) (corners : List VertexId) (f : FaceId)
      (h : m.addFace corners = .ok (f, m')) : Built m → Built m'
  | addPolygon (m : Mesh α) (points : List (Vec3 α)) : Built m → Built (m.addPolygon points).2
  | setPosition (m m' : Mesh α) (v : VertexId) (p : Vec3 α) (h : m.setPosition v p = .ok m') :
      Built m → Built m'
  | invert (m m' : Mesh α) (f : FaceId) (h : m.invert f = .ok m') : Built m → Built m'
  | replaceVertex (m m' : Mesh α) (f : FaceId) (old new : VertexId) (hold : old ∈ m.corners f)
      (h : m.replaceVertex f old new = .ok m') : Built m → Built m'
  | mergeVertices (m : Mesh α) (tolerance : α) : Built m → Built (m.mergeVertices tolerance).2
  | offsetAlongNormals (m m' : Mesh α) (vs : List VertexId) (distance : α)
      (h : m.offsetAlongNormals vs distance = .ok m') : Built m → Built m'
  | append (m other : Mesh α) (hother : other.Indexed) : Built m → Built (m.append other)

theorem Built.indexed {m : Mesh α} (h : Built m) : m.Indexed := by
  induction h with
  | empty => exact .empty
  | addVertex m p _ ih => exact m.addVertex_eq p ▸ ih.addVertices [p]
  | addFace m m' corners f h _ ih =>
      obtain ⟨hcorners, rfl⟩ := addFace_ok h
      exact ih.pushFace hcorners
  | addPolygon m points _ ih => exact ih.addPolygon points
  | setPosition m m' v p h _ ih =>
      obtain rfl := setPosition_ok h
      exact ih.moveVertex v p
  | invert m m' f h _ ih => exact ih.invert h
  | replaceVertex m m' f old new hold h _ ih =>
      obtain ⟨hnew, rfl⟩ := replaceVertex_ok h
      exact ih.relabel hold hnew
  | mergeVertices m tolerance _ ih => exact (ih.merging tolerance).indexed
  | offsetAlongNormals m m' vs distance h _ ih =>
      obtain ⟨moves, rfl⟩ := offsetAlongNormals_ok h
      exact ih.foldl_moveVertex moves
  | append m other hother _ ih => exact ih.append hother

/-- However a mesh was built, its faces have vertices that exist, and each vertex knows the faces
around it. -/
theorem index_of_built {m : Mesh α} (h : Built m) :
    (m.vertices.map Vertex.position).size = (m.vertices.map Vertex.containing).size ∧
    (∀ (f : FaceId) corners, m.faces[f]? = some corners → ∀ v ∈ corners, v < m.vertices.size) ∧
    ∀ (v : VertexId) x, m.vertices[v]? = some x → x.containing.Nodup ∧
      ∀ f, f ∈ x.containing ↔ ∃ corners, m.faces[f]? = some corners ∧ v ∈ corners := by
  have hm := h.indexed
  refine ⟨by simp, ?_, ?_⟩
  · intro f corners hf v hv
    exact hm.existing f v (corners_eq hf ▸ hv)
  · intro v x hx
    have hcontaining : m.containing v = x.containing := by
      rw [containing_eq_map, hx]
      rfl
    refine ⟨hcontaining ▸ hm.distinct v, fun f => ?_⟩
    rw [← hcontaining, hm.listed]
    constructor
    · intro hv
      cases hf : m.faces[f]? with
      | none => simp [corners, hf] at hv
      | some corners => exact ⟨corners, rfl, corners_eq hf ▸ hv⟩
    · rintro ⟨corners, hf, hv⟩
      exact corners_eq hf ▸ hv

/-- Face 0 uses vertex 0 twice and is recorded there once; it has left vertex 1. -/
theorem index_of_collapsed_face :
    ∃ m : Mesh Float, Built m ∧ m.faces = #[[0, 0, 2], [2, 0, 3]] ∧
      ∃ x y, m.vertices[0]? = some x ∧ m.vertices[1]? = some y ∧ x.containing = [0, 1] ∧
        x.containing.Nodup ∧ y.containing = [] ∧
        ∀ f, f ∈ y.containing ↔ ∃ corners, m.faces[f]? = some corners ∧ 1 ∈ corners := by
  have hbuilt : ∃ m : Mesh Float, Built m ∧ m.faces = #[[0, 0, 2], [2, 0, 3]] ∧
      ∃ x y, m.vertices[0]? = some x ∧ m.vertices[1]? = some y ∧ x.containing = [0, 1] ∧
        y.containing = [] :=
    ⟨_, .replaceVertex _ _ 0 1 0 (by decide) rfl (.addFace _ _ [2, 0, 3] 1 rfl
      (.addVertex _ ⟨1, 1, 0⟩ (.addPolygon _ [⟨0, 0, 0⟩, ⟨1, 0, 0⟩, ⟨0, 1, 0⟩] .empty))),
      rfl, _, _, rfl, rfl, rfl, rfl⟩
  obtain ⟨m, hm, hfaces, x, y, hx, hy, hxf, hyf⟩ := hbuilt
  obtain ⟨-, -, hvertex⟩ := index_of_built hm
  exact ⟨m, hm, hfaces, x, y, hx, hy, hxf, (hvertex 0 x hx).1, hyf, (hvertex 1 y hy).2⟩

end Arbor.Mesh
