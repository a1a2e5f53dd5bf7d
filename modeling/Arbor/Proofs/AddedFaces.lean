import Arbor.Proofs.LeafLayers
import Arbor.Solid.Tessellation

namespace Arbor.Mesh

variable {α : Type} [Scalar α] {m m' : Mesh α} {v w f : Nat}

/-- `m'` is `m` with a triangle more, one that is degenerate. -/
structure Idle (m m' : Mesh α) : Prop where
  faces : ∃ corners, corners.length = 3 ∧ m'.faces = m.faces.push corners
  position : ∀ f v, v ∈ m.corners f → m'.position v = m.position v
  degenerate : m'.isDegenerate m.faces.size degenerateTolerance = true

omit [Scalar α] in
theorem lt_of_mem_corners (h : v ∈ m.corners f) : f < m.faces.size := by
  refine Nat.lt_of_not_le fun hle => ?_
  rw [corners_of_le m f hle] at h
  cases h

omit [Scalar α] in
theorem corners_of_push {t : List VertexId} (h : m'.faces = m.faces.push t)
    (hf : f < m.faces.size) : m'.corners f = m.corners f := by
  rw [corners, corners, h, Array.getElem?_push, if_neg (Nat.ne_of_lt hf)]

omit [Scalar α] in
theorem corners_push_size {t : List VertexId} (h : m'.faces = m.faces.push t) :
    m'.corners m.faces.size = t := by
  rw [corners, h, Array.getElem?_push_size, Option.getD_some]

theorem triangleOf?_congr {corners : List VertexId}
    (h : ∀ v ∈ corners, m'.position v = m.position v) :
    m'.triangleOf? corners = m.triangleOf? corners := by
  unfold triangleOf?
  split
  · rw [h _ (by simp), h _ (by simp), h _ (by simp)]
  · rfl

namespace Idle

theorem corners_eq (h : Idle m m') (hf : f < m.faces.size) : m'.corners f = m.corners f := by
  obtain ⟨_, -, he⟩ := h.faces
  exact corners_of_push he hf

theorem faceIds_eq (h : Idle m m') : m'.faceIds = m.faceIds ++ [m.faces.size] := by
  obtain ⟨corners, -, he⟩ := h.faces
  rw [faceIds, he, Array.size_push, List.range_succ, faceIds]

theorem triangleOf?_eq (h : Idle m m') (hf : f < m.faces.size) :
    m'.triangleOf? (m'.corners f) = m.triangleOf? (m.corners f) := by
  rw [h.corners_eq hf, triangleOf?_congr (h.position f)]

theorem isDegenerate_eq (h : Idle m m') (hf : f < m.faces.size) (tolerance : α) :
    m'.isDegenerate f tolerance = m.isDegenerate f tolerance := by
  rw [isDegenerate, isDegenerate, h.triangleOf?_eq hf]

theorem triangle_eq (h : Idle m m') (hf : f < m.faces.size) : m'.triangle f = m.triangle f := by
  obtain ⟨corners, -, he⟩ := h.faces
  have hposition := h.position f
  rw [Mesh.corners, Array.getElem?_eq_getElem hf, Option.getD_some] at hposition
  rw [Mesh.triangle, Mesh.triangle, he, Array.getElem?_push, if_neg (Nat.ne_of_lt hf),
    Array.getElem?_eq_getElem hf]
  dsimp only
  rw [triangleOf?_congr hposition]

theorem faceArea_eq (h : Idle m m') (hf : f < m.faces.size) : m'.faceArea f = m.faceArea f := by
  rw [faceArea, faceArea, h.triangle_eq hf]

theorem faceNormal_eq (h : Idle m m') (hf : f < m.faces.size) :
    m'.faceNormal f = m.faceNormal f := by
  rw [faceNormal, faceNormal, h.triangle_eq hf]

theorem sound_eq (h : Idle m m') :
    (m'.faceIds.filter fun f => !m'.isDegenerate f degenerateTolerance) =
      m.faceIds.filter fun f => !m.isDegenerate f degenerateTolerance := by
  have hlast : [m.faces.size].filter (fun f => !m'.isDegenerate f degenerateTolerance) = [] := by
    rw [List.filter_singleton, h.degenerate]
    rfl
  rw [h.faceIds_eq, List.filter_append, hlast, List.append_nil]
  exact List.filter_congr fun f hf => by rw [h.isDegenerate_eq (List.mem_range.mp hf)]

theorem triangles_eq (h : Idle m m') : m'.triangles = m.triangles := by
  rw [triangles, triangles, h.sound_eq]
  refine List.filterMap_congr fun f hf => h.triangleOf?_eq ?_
  exact List.mem_range.mp (List.mem_filter.mp hf).1

theorem boundaryEdges_eq (h : Idle m m') : m'.boundaryEdges = m.boundaryEdges := by
  have hedges : m'.edges = m.edges := by
    rw [edges, edges, h.sound_eq]
    refine List.flatMap_congr fun f hf => ?_
    rw [h.corners_eq (List.mem_range.mp (List.mem_filter.mp hf).1)]
  rw [boundaryEdges, boundaryEdges, hedges]

theorem shellArea_eq (h : Idle m m') : m'.shellArea = m.shellArea := by
  obtain ⟨corners, hlength, he⟩ := h.faces
  have hlast : (m'.corners m.faces.size).length = 3 := by rw [corners_push_size he, hlength]
  obtain ⟨area, harea⟩ := faceArea_ok hlast
  have hold : m.faceIds.foldlM (fun total f => do
      let area ← m'.faceArea f
      return if m'.isDegenerate f degenerateTolerance then total else total + area) 0 =
        m.shellArea := by
    refine foldlM_congr (fun total f hf => ?_) 0
    rw [h.faceArea_eq (List.mem_range.mp hf), h.isDegenerate_eq (List.mem_range.mp hf)]
  rw [shellArea, h.faceIds_eq, List.foldlM_append, hold]
  simp only [List.foldlM_cons, List.foldlM_nil, harea, h.degenerate, if_true]
  exact bind_pure _

end Idle

omit [Scalar α] in
theorem foldlM_invert {k : Nat} (h : ∀ f < m.faces.size, (m.corners f).length = 3)
    (hk : k ≤ m.faces.size) : Yields (fun m' => m'.vertices = m.vertices ∧
      ∀ f, m'.faces[f]? = if f < k then (m.faces[f]?).map turned else m.faces[f]?)
      ((List.range k).foldlM (fun m f => m.invert f) m) := by
  induction k with
  | zero => exact ⟨rfl, fun f => (if_neg (Nat.not_lt_zero f)).symm⟩
  | succ k ih =>
      rw [List.range_succ, List.foldlM_append]
      refine (ih (Nat.le_of_succ_le hk)).bind fun m' ⟨hvertices, hfaces⟩ => ?_
      rw [List.foldlM_cons]
      obtain ⟨a, b, c, hcorners⟩ := List.length_eq_three.mp (h k hk)
      have hold : m.faces[k]? = some [a, b, c] := by
        rw [← hcorners, corners, Array.getElem?_eq_getElem hk, Option.getD_some]
      have hnext : m'.faces[k]? = some [a, b, c] := by rw [hfaces, if_neg (Nat.lt_irrefl k), hold]
      rw [invert, hnext]
      refine ⟨hvertices, fun f => ?_⟩
      dsimp only
      rw [Array.getElem?_setIfInBounds, hfaces]
      rcases Nat.lt_trichotomy f k with hf | rfl | hf
      · rw [if_neg (Nat.ne_of_gt hf), if_pos hf, if_pos (Nat.lt_succ_of_lt hf)]
      · rw [if_pos rfl, if_pos (Array.getElem?_eq_some_iff.mp hnext).1, if_pos (Nat.lt_succ_self f),
          hold]
        rfl
      · rw [if_neg (Nat.ne_of_lt hf), if_neg (Nat.not_lt_of_gt hf), if_neg (by omega)]

omit [Scalar α] in
theorem invertAll_eq (h : ∀ f < m.faces.size, (m.corners f).length = 3) :
    m.invertAll = .ok { m with faces := m.faces.map turned } := by
  obtain ⟨m', hm', hvertices, hfaces⟩ := yields_iff.mp (foldlM_invert h (Nat.le_refl _))
  have he : m' = { m with faces := m.faces.map turned } := by
    obtain ⟨vertices, faces⟩ := m'
    rw [Mesh.mk.injEq]
    refine ⟨hvertices, Array.ext_getElem? fun f => ?_⟩
    rw [hfaces, Array.getElem?_map]
    split
    · rfl
    next hf => rw [Array.getElem?_eq_none (Nat.not_lt.mp hf), Option.map_none]
  rw [invertAll, faceIds, hm', he]

theorem triangles_eq_filterMap (m : Mesh α) :
    m.triangles = m.faces.toList.filterMap fun corners => (m.triangleOf? corners).filter fun t =>
      !t.hasCoincidentCorners degenerateTolerance := by
  rw [triangles, ← map_corners, List.filterMap_map, List.filterMap_filter]
  refine List.filterMap_congr fun f _ => ?_
  rw [Function.comp_apply, isDegenerate]
  cases m.triangleOf? (m.corners f) with
  | none => rfl
  | some t => cases h : t.hasCoincidentCorners degenerateTolerance <;> simp [Option.filter, h]

omit [Scalar α] in
theorem mem_corners_turned : v ∈ ({ m with faces := m.faces.map turned } : Mesh α).corners f ↔
    v ∈ m.corners f := by
  rw [corners, corners, Array.getElem?_map]
  cases m.faces[f]? with
  | none => rfl
  | some t => exact mem_turned

omit [Scalar α] in
theorem Indexed.turned (h : m.Indexed) :
    ({ m with faces := m.faces.map turned } : Mesh α).Indexed :=
  h.congr (Nat.le_refl _) (fun _ => rfl) fun _ _ => mem_corners_turned

theorem triangles_append {other : Mesh α} (h : m.Indexed) :
    (m.append other).triangles = m.triangles ++ other.triangles := by
  rw [triangles_eq_filterMap, triangles_eq_filterMap m, triangles_eq_filterMap other, faces_append,
    List.filterMap_append, List.filterMap_map]
  refine congrArg₂ _ (List.filterMap_congr fun corners hcorners => ?_)
    (List.filterMap_congr fun corners _ => ?_)
  · rw [triangleOf?_congr fun v hv => ?_]
    obtain ⟨f, hf⟩ := List.mem_iff_getElem?.mp hcorners
    rw [position_append, if_pos (h.existing f v (corners_eq (Array.getElem?_toList ▸ hf) ▸ hv))]
  · have hshift : (m.append other).triangleOf? (corners.map (· + m.vertices.size)) =
        other.triangleOf? corners := by
      match corners with
      | [] | [_] | [_, _] | _ :: _ :: _ :: _ :: _ => rfl
      | [a, b, c] => simp [triangleOf?, position_append]
    rw [Function.comp_apply, hshift]

theorem Merged.edgeSurface_yields {tolerance : α} {kept : List VertexId}
    (h : Merged tolerance kept m) (front back : α) :
    Yields (fun skirt => Depicts (m.OffsetTo kept front back) skirt
      (m.boundaryEdges.flatMap stripTriangles).flatten (m.boundaryEdges.flatMap stripTriangles))
      (m.edgeSurface front back) :=
  h.foldlM_addSkirt_yields (fun _ => h.boundary_kept) .empty (List.forall_mem_nil _)

theorem Copies.triangular {tolerance distance : α} {kept : List VertexId} {copy : Mesh α}
    (h : Copies kept m distance copy) (hm : Merged tolerance kept m) :
    ∀ f < copy.faces.size, (copy.corners f).length = 3 := by
  intro f hf
  rw [corners, h.faces, ← corners]
  exact hm.contracted.triangular f (h.faces ▸ hf)

/-- `m'` is `m` with a triangle more, whose corners may be vertices of `m`. -/
structure Grown (m m' : Mesh α) : Prop where
  faces : ∃ corners, corners.length = 3 ∧ m'.faces = m.faces.push corners
  size : m.vertices.size ≤ m'.vertices.size
  position : ∀ v < m.vertices.size, m'.position v = m.position v
  containing : ∀ v < m.vertices.size, m'.containing v = m.containing v ∨
    m'.containing v = m.containing v ++ [m.faces.size]

def Unbent (m m' : Mesh α) : Prop := ∀ f v, v ∈ m.corners f → m'.vertexNormal v = m.vertexNormal v

namespace Grown

theorem length_corners (h : Grown m m') : (m'.corners m.faces.size).length = 3 := by
  obtain ⟨corners, hlength, he⟩ := h.faces
  rw [corners_push_size he, hlength]

theorem idle (h : Grown m m') (hm : m.Indexed)
    (hdegenerate : m'.isDegenerate m.faces.size degenerateTolerance = true) : Idle m m' :=
  ⟨h.faces, fun f v hv => h.position v (hm.existing f v hv), hdegenerate⟩

theorem mem_containing (h : Grown m m') (hv : v < m.vertices.size) (hf : f < m.faces.size) :
    f ∈ m'.containing v ↔ f ∈ m.containing v := by
  rcases h.containing v hv with he | he
  · rw [he]
  · simp [he, Nat.ne_of_lt hf]

theorem find?_containing (h : Grown m m') (hv : v < m.vertices.size) {p q : FaceId → Bool}
    (hpq : ∀ f ∈ m.containing v, p f = q f) {f : FaceId} (hf : f ∈ m.containing v)
    (hq : q f = true) : (m'.containing v).find? p = (m.containing v).find? q := by
  have hold : (m.containing v).find? p = (m.containing v).find? q := List.find?_congr hpq
  rcases h.containing v hv with he | he
  · rw [he, hold]
  · have hsome : ((m.containing v).find? q).isSome := List.find?_isSome.mpr ⟨f, hf, hq⟩
    rw [he, List.find?_append, hold, Option.or_of_isSome hsome]

theorem edgeNormal_eq (h : Grown m m') (hm : m.Indexed) (hidle : Idle m m')
    (hv : v ∈ m.corners f) (hw : w ∈ m.corners f) : m'.edgeNormal v w = m.edgeNormal v w := by
  have hvlt := hm.existing f v hv
  have hwlt := hm.existing f w hw
  have hfv : f ∈ m.containing v := (hm.listed v f).mpr hv
  have hfw : f ∈ m.containing w := (hm.listed w f).mpr hw
  have hfaces : ∀ g ∈ m.containing v, g < m.faces.size := fun g hg =>
    lt_of_mem_corners ((hm.listed v g).mp hg)
  have hcommon : (m'.containing v).find? (fun g => (m'.containing w).contains g) =
      (m.containing v).find? fun g => (m.containing w).contains g := by
    refine h.find?_containing hvlt (fun g hg => ?_) hfv (List.contains_iff_mem.mpr hfw)
    rw [Bool.eq_iff_iff, List.contains_iff_mem, List.contains_iff_mem,
      h.mem_containing hwlt (hfaces g hg)]
  have hne : (m.containing v).isEmpty = false := List.isEmpty_eq_false_iff.mpr
    (List.ne_nil_of_mem hfv)
  have hne' : (m'.containing v).isEmpty = false := List.isEmpty_eq_false_iff.mpr
    (List.ne_nil_of_mem ((h.mem_containing hvlt (hfaces f hfv)).mpr hfv))
  have hrequire {u : VertexId} (hu : u < m.vertices.size) :
      m'.requireVertex u = m.requireVertex u := by
    rw [requireVertex_eq_ok.mpr hu, requireVertex_eq_ok.mpr (Nat.lt_of_lt_of_le hu h.size)]
  unfold edgeNormal
  rw [hrequire hvlt, hrequire hwlt, hcommon, hne, hne', h.position v hvlt, h.position w hwlt]
  cases hfind : (m.containing v).find? fun g => (m.containing w).contains g with
  | none => rfl
  | some g =>
      have hg := hfaces g (List.mem_of_find?_eq_some hfind)
      dsimp only
      rw [hidle.faceNormal_eq hg, hidle.corners_eq hg]
      have hinward (candidate : Vec3 α) : (m.corners g).any (fun u => u != v && u != w &&
          0 ≤ (m'.position u - m.position v).normalizeOrZero.dot candidate) =
            (m.corners g).any fun u => u != v && u != w &&
              0 ≤ (m.position u - m.position v).normalizeOrZero.dot candidate := by
        rw [Bool.eq_iff_iff, List.any_eq_true, List.any_eq_true]
        refine exists_congr fun u => and_congr_right fun hu => ?_
        rw [hidle.position g u hu]
      simp only [hinward]

theorem edgeSurface_eq (h : Grown m m') (hm : m.Indexed) (hidle : Idle m m')
    (hunbent : Unbent m m') (front back : α) :
    m'.edgeSurface front back = m.edgeSurface front back := by
  unfold edgeSurface
  rw [hidle.boundaryEdges_eq]
  refine foldlM_congr (fun skirt e he => ?_) ({} : Mesh α)
  obtain ⟨v, w⟩ := e
  obtain ⟨f, hv, hw⟩ := corners_of_boundary he
  unfold addSkirt
  dsimp only at hv hw ⊢
  rw [h.edgeNormal_eq hm hidle hv hw, hunbent f v hv, hunbent f w hw,
    h.position v (hm.existing f v hv), h.position w (hm.existing f w hw)]

end Grown

end Arbor.Mesh
