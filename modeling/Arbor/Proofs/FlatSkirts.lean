import Arbor.Proofs.EdgeNormals
import Arbor.Proofs.MisshapenFaces

namespace Arbor

namespace Mesh

variable {m : Mesh ℝ} {n : Vec3 ℝ} {kept : List VertexId} {tolerance front back : ℝ}
  {e : VertexId × VertexId} {f g v w : Nat}

/-- Triangles that are not degenerate and all face along `n`. -/
structure Facing (m : Mesh ℝ) (n : Vec3 ℝ) : Prop where
  unit : n.dot n = 1
  sound : ∀ f < m.faces.size, m.isDegenerate f degenerateTolerance = false
  normal : ∀ f < m.faces.size, m.faceNormal f = .ok n

theorem foldlM_normals {fs : List FaceId} (hfs : ∀ f ∈ fs, m.faceNormal f = .ok n) (k : Nat) :
    fs.foldlM (fun sum f => do return sum + (← m.faceNormal f)) (n * (k : ℝ)) =
      .ok (n * ((k + fs.length : Nat) : ℝ)) := by
  induction fs generalizing k with
  | nil => rfl
  | cons f fs ih =>
      obtain ⟨hf, hfs⟩ := List.forall_mem_cons.mp hfs
      have hnext : n * (k : ℝ) + n = n * ((k + 1 : Nat) : ℝ) := by
        push_cast
        ext <;> simp only [Vec3.x_add, Vec3.y_add, Vec3.z_add, Vec3.x_mul, Vec3.y_mul,
          Vec3.z_mul] <;> ring
      rw [List.foldlM_cons, hf]
      change fs.foldlM _ (n * (k : ℝ) + n) = _
      rw [hnext, ih hfs, List.length_cons, Nat.add_assoc, Nat.add_comm 1]

theorem Facing.vertexNormal_eq (h : m.Facing n) (hm : m.Indexed) (hv : v ∈ m.corners f) :
    m.vertexNormal v = .ok n := by
  have hcontaining : f ∈ m.containing v := (hm.listed v f).mpr hv
  have hnormals : ∀ g ∈ m.containing v, m.faceNormal g = .ok n := fun g hg =>
    h.normal g (lt_of_mem_corners ((hm.listed v g).mp hg))
  have hsum := foldlM_normals hnormals 0
  have hzero : n * ((0 : Nat) : ℝ) = 0 := by ext <;> simp
  have hpos : (0 : ℝ) < ((0 + (m.containing v).length : Nat) : ℝ) := by
    rw [Nat.zero_add]
    exact_mod_cast List.length_pos_of_mem hcontaining
  rw [hzero] at hsum
  rw [vertexNormal, requireVertex_eq_ok.mpr (hm.existing f v hv), hsum]
  exact congrArg Except.ok (Vec3.normalizeOrZero_mul h.unit hpos)

theorem edges_eq_arrows (m : Mesh ℝ) : m.edges =
    (m.faceIds.filter fun f => !m.isDegenerate f degenerateTolerance).flatMap
      fun f => arrows (m.corners f) := by
  refine List.flatMap_congr fun f _ => ?_
  generalize m.corners f = corners
  match corners with
  | [] | [_] | [_, _] | [_, _, _] | _ :: _ :: _ :: _ :: _ => rfl

theorem edges_eq_flatMap (hsound : ∀ f < m.faces.size,
    m.isDegenerate f degenerateTolerance = false) : m.edges = m.faces.toList.flatMap arrows := by
  have hall : m.faceIds.filter (fun f => !m.isDegenerate f degenerateTolerance) = m.faceIds :=
    List.filter_eq_self.mpr fun f hf => by simp [hsound f (List.mem_range.mp hf)]
  rw [edges_eq_arrows, hall, ← map_corners, List.flatMap_map]

theorem boundaryEdges_eq_outline (hsound : ∀ f < m.faces.size,
    m.isDegenerate f degenerateTolerance = false) :
    m.boundaryEdges = outline (m.faces.toList.flatMap arrows) := by
  rw [boundaryEdges, edges_eq_flatMap hsound, outline]

theorem face_of_edge (he : e ∈ m.edges) : ∃ g, e ∈ arrows (m.corners g) := by
  rw [edges_eq_arrows] at he
  obtain ⟨g, -, he⟩ := List.mem_flatMap.mp he
  exact ⟨g, he⟩

theorem Facing.nodup (h : m.Facing n) (hm : Merged mergeTolerance kept m) :
    ∀ corners ∈ m.faces.toList, corners.Nodup := by
  intro corners hcorners
  obtain ⟨f, hf⟩ := List.mem_iff_getElem?.mp hcorners
  rw [Array.getElem?_toList] at hf
  have hlt := (Array.getElem?_eq_some_iff.mp hf).1
  have hself (p q : Vec3 ℝ) (_ : (p - q).length < mergeTolerance) :
      (p - p).length < degenerateTolerance := length_sub_self p ▸ degenerateTolerance_pos
  exact corners_eq hf ▸ hm.nodup hself hlt (h.sound f hlt)

theorem face_of_boundary (hm : Merged mergeTolerance kept m) (h : m.Facing n)
    (he : e ∈ m.boundaryEdges) : ∃ g, e ∈ arrows (m.corners g) ∧
      ∀ f, e.1 ∈ m.corners f → e.2 ∈ m.corners f → f = g := by
  obtain ⟨g, hg⟩ := face_of_edge (List.mem_filter.mp he).1
  have hside : s(e.1, e.2) ∈ sides (m.corners g) :=
    sides_eq_map (m.corners g) ▸ List.mem_map_of_mem hg
  have hglt := lt_of_mem_corners (mem_of_arrow hg).1
  have hnodup (f : FaceId) (hf : f < m.faces.size) : (m.corners f).Nodup := by
    refine h.nodup hm _ ?_
    rw [← map_corners]
    exact List.mem_map_of_mem (List.mem_range.mpr hf)
  have hne : e.1 ≠ e.2 := ne_of_mem_sides (hnodup g hglt) hside
  have hone : edgeFaces m.faces.toList s(e.1, e.2) = 1 := by
    have hsingle : s(e.1, e.2) ∈ single (m.faces.toList.flatMap sides) :=
      map_boundaryEdges (fun f hf => h.sound f (List.mem_range.mp hf)) ▸ List.mem_map_of_mem he
    rw [edgeFaces_eq_count (h.nodup hm)]
    simpa using (List.mem_filter.mp hsingle).2
  rw [edgeFaces, ← map_corners, List.countP_map, List.countP_eq_length_filter,
    List.length_eq_one_iff] at hone
  obtain ⟨x, hx⟩ := hone
  have honly (f : FaceId) (hf : f < m.faces.size) (hmem : s(e.1, e.2) ∈ sides (m.corners f)) :
      f = x := by
    refine List.mem_singleton.mp (hx ▸ List.mem_filter.mpr ⟨List.mem_range.mpr hf, ?_⟩)
    simpa using hmem
  refine ⟨g, hg, fun f hv hw => ?_⟩
  have hflt := lt_of_mem_corners hv
  rw [honly g hglt hside]
  exact honly f hflt (side_of_corners (hm.contracted.triangular f hflt) hv hw hne)

theorem Facing.third (h : m.Facing n) (hm : Merged mergeTolerance kept m)
    (he : e ∈ arrows (m.corners g)) : ∃ u ∈ m.corners g, u ≠ e.1 ∧ u ≠ e.2 ∧
      (∀ x ∈ m.corners g, x ≠ e.1 → x ≠ e.2 → x = u) ∧
      ((m.along e).cross (m.position u - m.position e.1)).normalizeOrZero = n := by
  have hlt := lt_of_mem_corners (mem_of_arrow he).1
  obtain ⟨u, hu, honly, hne, hnormal⟩ := third_of_face (h.normal g hlt) he
  have hnodup : (m.corners g).Nodup := h.nodup hm _ (by
    rw [← map_corners]
    exact List.mem_map_of_mem (List.mem_range.mpr hlt))
  exact ⟨u, hu, (hne hnodup).1, (hne hnodup).2, honly,
    (m.triangleOver e.1 e.2 u).normal_eq_cross.symm.trans hnormal⟩

/-- A boundary edge has its face to its left, so its normal points to its right. -/
theorem Facing.edgeNormal_eq (h : m.Facing n) (hm : Merged mergeTolerance kept m)
    (he : e ∈ m.boundaryEdges) :
    m.edgeNormal e.1 e.2 = .ok (Vec3.outward n (m.along e)) := by
  obtain ⟨g, hg, honly⟩ := face_of_boundary hm h he
  obtain ⟨hv, hw⟩ := mem_of_arrow hg
  obtain ⟨u, hu, -, -, hnormal⟩ := third_of_face (h.normal g (lt_of_mem_corners hv)) hg
  have hunit : (m.triangleOver e.1 e.2 u).normal.dot (m.triangleOver e.1 e.2 u).normal = 1 :=
    hnormal ▸ h.unit
  have hlength := hm.contracted.triangular g (lt_of_mem_corners hv)
  rw [edgeNormal_of_perm hm.indexed (commonFace?_of_only hm.indexed hv hw honly)
    (perm_of_corners hlength hv hw hu (nodup_of_unit hunit)) hunit, Triangle.away, hnormal]
  rfl

theorem addFacing_eq (m : Mesh ℝ) {a b c k : Vec3 ℝ} (hk : k.dot k = 1)
    (hnormal : (⟨a, b, c⟩ : Triangle ℝ).normal = k) :
    addFacing k m [a, b, c] = .ok (m.addPolygon [a, b, c]).2 := by
  have hface : (m.addPolygon [a, b, c]).2.faceNormal (m.addPolygon [a, b, c]).1 = .ok k := by
    rw [addPolygon_eq, fst_pushFace, faces_addVertices, ← addPolygon_eq, ← hnormal]
    exact faceNormal_of_points (m.points_addPolygon [a, b, c])
  unfold addFacing
  dsimp only
  rw [hface]
  refine if_neg ?_
  rw [hk]
  exact not_lt.mpr zero_le_one

noncomputable def offsetPoint (m : Mesh ℝ) (n : Vec3 ℝ) (front back : ℝ) (c : VertexId × Side) :
    Vec3 ℝ :=
  m.position c.1 + n * c.2.offset front back

theorem strip_cross (p q n : Vec3 ℝ) (front back : ℝ) :
    ((q + n * front) - (p + n * back)).cross ((p + n * front) - (p + n * back)) =
        (q - p).cross n * (front - back) ∧
      ((q + n * back) - (p + n * back)).cross ((q + n * front) - (p + n * back)) =
        (q - p).cross n * (front - back) := by
  constructor <;> ext <;>
    simp only [Vec3.x_cross, Vec3.y_cross, Vec3.z_cross, Vec3.x_sub, Vec3.y_sub, Vec3.z_sub,
      Vec3.x_add, Vec3.y_add, Vec3.z_add, Vec3.x_mul, Vec3.y_mul, Vec3.z_mul] <;>
    ring

/-- Both triangles of a strip face away from the triangle at the edge. -/
theorem Facing.normal_of_strip (h : m.Facing n) (hm : Merged mergeTolerance kept m)
    (hoffsets : back < front) (he : e ∈ arrows (m.corners g)) {t : List (VertexId × Side)}
    (ht : t ∈ stripTriangles e) : ∃ a b c, t.map (m.offsetPoint n front back) = [a, b, c] ∧
      (⟨a, b, c⟩ : Triangle ℝ).normal = Vec3.outward n (m.along e) := by
  obtain ⟨u, -, -, -, -, hcross⟩ := h.third hm he
  have hd := (Vec3.ne_zero_of_cross h.unit hcross).1
  have hcrosses := strip_cross (m.position e.1) (m.position e.2) n front back
  have hunit := Vec3.outward_unit h.unit hcross
  obtain ⟨l, hl, hright⟩ := Vec3.cross_normal hd n
  have hpos := mul_pos hl (sub_pos.mpr hoffsets)
  have hmul : (m.along e).cross n * (front - back) =
      Vec3.outward n (m.along e) * (l * (front - back)) := by
    rw [hright]
    ext <;> simp only [Vec3.x_mul, Vec3.y_mul, Vec3.z_mul] <;> ring
  rcases List.mem_pair.mp ht with rfl | rfl
  · exact ⟨_, _, _, rfl, Vec3.normal_eq hunit hpos (hcrosses.1.trans hmul)⟩
  · exact ⟨_, _, _, rfl, Vec3.normal_eq hunit hpos (hcrosses.2.trans hmul)⟩

theorem Facing.edgeSurface_eq (h : m.Facing n) (hm : Merged mergeTolerance kept m)
    (hoffsets : back < front) : m.edgeSurface front back = .ok (ofPolygons
      ((m.boundaryEdges.flatMap stripTriangles).map (List.map (m.offsetPoint n front back)))) := by
  have hstep : ∀ e ∈ m.boundaryEdges, ∀ skirt, addSkirt m front back skirt e =
      .ok (((stripTriangles e).map (List.map (m.offsetPoint n front back))).foldl
        (fun m p => (m.addPolygon p).2) skirt) := by
    intro e he skirt
    obtain ⟨g, hg, -⟩ := face_of_boundary hm h he
    obtain ⟨hv, hw⟩ := mem_of_arrow hg
    obtain ⟨u, -, -, -, -, hcross⟩ := h.third hm hg
    have hunit := Vec3.outward_unit h.unit hcross
    have hedge := h.edgeNormal_eq hm he
    have hv' := h.vertexNormal_eq hm.indexed hv
    have hw' := h.vertexNormal_eq hm.indexed hw
    have hfacing : ∀ p ∈ (stripTriangles e).map (List.map (m.offsetPoint n front back)),
        ∀ skirt, addFacing (Vec3.outward n (m.along e)) skirt p =
          .ok (skirt.addPolygon p).2 := by
      intro p hp skirt
      obtain ⟨t, ht, rfl⟩ := List.mem_map.mp hp
      obtain ⟨a, b, c, habc, hnormal⟩ := h.normal_of_strip hm hoffsets hg ht
      rw [habc, addFacing_eq skirt hunit hnormal]
    obtain ⟨v, w⟩ := e
    dsimp only at hedge hv' hw'
    unfold addSkirt
    dsimp only
    rw [hedge, hv', hw']
    exact foldlM_ok hfacing skirt
  rw [edgeSurface, foldlM_ok hstep, ofPolygons, List.map_flatMap, List.foldl_flatMap]

theorem edge_of_strip {β : Type} {boundary : List (β × β)} {t : List (β × Side)} {f : Nat}
    (hf : (boundary.flatMap stripTriangles)[f]? = some t) :
    ∃ e, boundary[f / 2]? = some e ∧ t ∈ stripTriangles e := by
  induction boundary generalizing f with
  | nil => cases hf
  | cons e boundary ih =>
      rw [List.flatMap_cons] at hf
      rcases Nat.lt_or_ge f 2 with hlt | hge
      · refine ⟨e, by rw [Nat.div_eq_of_lt hlt]; rfl, ?_⟩
        rw [List.getElem?_append_left hlt] at hf
        exact List.mem_of_getElem? hf
      · rw [List.getElem?_append_right hge] at hf
        obtain ⟨d, hd, ht⟩ := ih hf
        have hdiv : f / 2 = (f - 2) / 2 + 1 := by omega
        exact ⟨d, by rw [hdiv, List.getElem?_cons_succ]; exact hd, ht⟩

theorem Facing.normal_of_skirt (h : m.Facing n) (hm : Merged mergeTolerance kept m)
    (hoffsets : back < front) {skirt : Mesh ℝ} (hskirt : m.edgeSurface front back = .ok skirt)
    (hf : f < skirt.faces.size) : ∃ e k, m.boundaryEdges[f / 2]? = some e ∧
      skirt.faceNormal f = .ok k ∧ k.dot k = 1 ∧ k.dot n = 0 ∧
      (∃ g, e ∈ arrows (m.corners g)) ∧ ∀ g, e ∈ arrows (m.corners g) →
        ∀ u ∈ m.corners g, u ≠ e.1 → u ≠ e.2 → (m.position u - m.position e.1).dot k < 0 := by
  rw [h.edgeSurface_eq hm hoffsets] at hskirt
  obtain rfl := Except.ok.inj hskirt
  rw [← length_lengths, ofPolygons, Surface.lengths_foldl_addPolygon] at hf
  have hlt : f < (m.boundaryEdges.flatMap stripTriangles).length := by simpa [lengths] using hf
  have hget := List.getElem?_eq_getElem hlt
  obtain ⟨e, he, ht⟩ := edge_of_strip hget
  obtain ⟨g, hg, -⟩ := face_of_boundary hm h (List.mem_of_getElem? he)
  obtain ⟨a, b, c, habc, hnormal⟩ := h.normal_of_strip hm hoffsets hg ht
  obtain ⟨u, -, -, -, -, hcross⟩ := h.third hm hg
  refine ⟨e, Vec3.outward n (m.along e), he, ?_, Vec3.outward_unit h.unit hcross,
    Vec3.outward_dot_normal .., ⟨g, hg⟩, fun g hg x hx hne hne' => ?_⟩
  · rw [← hnormal]
    refine faceNormal_of_points (points_ofPolygons ?_)
    rw [List.getElem?_map, hget, Option.map_some, habc]
  · obtain ⟨u, -, -, -, honly, hcross⟩ := h.third hm hg
    rw [honly x hx hne hne']
    exact Vec3.dot_outward_neg h.unit hcross

end Mesh

end Arbor
