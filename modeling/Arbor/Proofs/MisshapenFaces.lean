import Arbor.Proofs.VertexClusters

namespace Arbor

variable {α ε β : Type}

theorem meets_foldlM {ι : Type} {bad : ε → Prop} {inv : β → Prop} {post : ι → Prop}
    {step : β → ι → Except ε β} {xs : List ι} {b : β} (h : inv b)
    (hstep : ∀ x ∈ xs, ∀ b, inv b → Meets bad (fun c => inv c ∧ post x) (step b x)) :
    Meets bad (fun c => inv c ∧ ∀ x ∈ xs, post x) (xs.foldlM step b) := by
  induction xs generalizing b with
  | nil => exact ⟨h, List.forall_mem_nil _⟩
  | cons x xs ih =>
      rw [List.foldlM_cons]
      refine (hstep x List.mem_cons_self b h).bind fun c ⟨hc, hx⟩ => ?_
      refine (ih hc fun y hy => hstep y (List.mem_cons_of_mem _ hy)).mono ?_ fun _ => id
      exact fun d ⟨hd, hxs⟩ => ⟨hd, List.forall_mem_cons.mpr ⟨hx, hxs⟩⟩

theorem meets_mapM {ι : Type} {bad : ε → Prop} {post : ι → Prop} {f : ι → Except ε β}
    {xs : List ι} (h : ∀ x ∈ xs, Meets bad (fun _ => post x) (f x)) :
    Meets bad (fun _ => ∀ x ∈ xs, post x) (xs.mapM f) := by
  induction xs with
  | nil => exact List.forall_mem_nil _
  | cons x xs ih =>
      rw [List.mapM_cons]
      refine (h x List.mem_cons_self).bind fun b hx => ?_
      refine (ih fun y hy => h y (List.mem_cons_of_mem _ hy)).bind fun bs hxs => ?_
      exact List.forall_mem_cons.mpr ⟨hx, hxs⟩

/-- The faults of a face that is no triangle, if the faces have these numbers of corners. -/
def Misshapen (lengths : List Nat) (fault : Fault α) : Prop :=
  ∃ f n : Nat, lengths[f]? = some n ∧ n ≠ 3 ∧
    (fault = .notTriangle f n ∨ fault = .notInvertible f n)

theorem structural_of_misshapen {lengths : List Nat} {fault : Fault Float}
    (h : Misshapen lengths fault) : ∃ text, fault.message = Fault.structural text := by
  obtain ⟨f, n, -, -, rfl | rfl⟩ := h
  · exact ⟨_, rfl⟩
  · exact ⟨_, rfl⟩

namespace Mesh

def lengths (m : Mesh α) : List Nat := m.faces.toList.map List.length

def Triangular (m : Mesh α) : Prop := ∀ n ∈ m.lengths, n = 3

variable {m m' : Mesh α} {f v w : Nat} {kept : List VertexId}

theorem lengths_eq (hf : f < m.faces.size) : m.lengths[f]? = some (m.corners f).length := by
  rw [lengths, List.getElem?_map, Array.getElem?_toList, Array.getElem?_eq_getElem hf, corners,
    Array.getElem?_eq_getElem hf]
  rfl

theorem length_lengths (m : Mesh α) : m.lengths.length = m.faces.size := by
  rw [lengths, List.length_map, Array.length_toList]

theorem size_of_lengths (h : m'.lengths = m.lengths) : m'.faces.size = m.faces.size := by
  rw [← length_lengths, h, length_lengths]

theorem triangular_iff : m.Triangular ↔ ∀ f < m.faces.size, (m.corners f).length = 3 := by
  constructor
  · exact fun h f hf => h _ (List.mem_of_getElem? (lengths_eq hf))
  · intro h n hn
    obtain ⟨f, hf⟩ := List.mem_iff_getElem?.mp hn
    have hlt : f < m.faces.size := length_lengths m ▸ (List.getElem?_eq_some_iff.mp hf).1
    exact Option.some.inj (hf.symm.trans (lengths_eq hlt)) ▸ h f hlt

theorem invert_meets (hf : f < m.faces.size) :
    Meets (Misshapen m.lengths) (fun m' => m'.lengths = m.lengths ∧ (m.corners f).length = 3)
      (m.invert f) := by
  unfold invert
  split
  next hnone => exact absurd hf (Nat.not_lt.mpr (Array.getElem?_eq_none_iff.mp hnone))
  next a b c hface =>
    refine ⟨?_, by rw [corners_eq hface]; rfl⟩
    refine List.ext_getElem? fun g => ?_
    simp only [lengths, Array.toList_setIfInBounds, List.getElem?_map, List.getElem?_set,
      Array.getElem?_toList, Array.length_toList]
    by_cases hg : f = g
    · subst hg
      simp [hf, (Array.getElem?_eq_some_iff.mp hface).2]
    · simp [hg]
  next corners hno hface =>
    have hlength : corners.length ≠ 3 := by
      intro hthree
      obtain ⟨a, b, c, rfl⟩ := List.length_eq_three.mp hthree
      exact hno a b c rfl
    exact ⟨f, corners.length, corners_eq hface ▸ lengths_eq hf, hlength, .inr rfl⟩

theorem invertAll_meets (m : Mesh α) :
    Meets (Misshapen m.lengths) (fun _ => m.Triangular) m.invertAll := by
  have hfold : Meets (Misshapen m.lengths) (fun m' : Mesh α => m'.lengths = m.lengths ∧
      ∀ f ∈ m.faceIds, m.lengths[f]? = some 3) m.invertAll := by
    refine meets_foldlM rfl fun f hf m' hm' => ?_
    have hlt : f < m'.faces.size := size_of_lengths hm' ▸ List.mem_range.mp hf
    rw [← hm']
    refine (invert_meets hlt).mono (fun m'' h => ?_) fun _ => id
    exact ⟨h.1, h.2 ▸ lengths_eq hlt⟩
  refine hfold.mono (fun _ h => ?_) fun _ => id
  refine triangular_iff.mpr fun f hf => ?_
  exact Option.some.inj ((lengths_eq hf).symm.trans (h.2 f (List.mem_range.mpr hf)))

variable [Scalar α]

theorem triangle_meets (hf : f < m.faces.size) :
    Meets (Misshapen m.lengths) (fun _ => (m.corners f).length = 3) (m.triangle f) := by
  unfold triangle
  split
  next hnone => exact absurd hf (Nat.not_lt.mpr (Array.getElem?_eq_none_iff.mp hnone))
  next corners hface =>
    rw [← corners_eq hface]
    split
    next t ht =>
      unfold triangleOf? at ht
      split at ht
      next a b c hcorners => exact congrArg List.length hcorners
      next => cases ht
    next hnone =>
      refine ⟨f, _, lengths_eq hf, fun hthree => ?_, .inl rfl⟩
      obtain ⟨a, b, c, habc⟩ := List.length_eq_three.mp hthree
      rw [habc] at hnone
      cases hnone

theorem faceNormal_meets (hf : f < m.faces.size) :
    Meets (Misshapen m.lengths) (fun _ => (m.corners f).length = 3) (m.faceNormal f) :=
  (triangle_meets hf).map fun _ => id

theorem faceArea_meets (hf : f < m.faces.size) :
    Meets (Misshapen m.lengths) (fun _ => (m.corners f).length = 3) (m.faceArea f) :=
  (triangle_meets hf).map fun _ => id

theorem shellArea_meets (m : Mesh α) :
    Meets (Misshapen m.lengths) (fun _ => m.Triangular) m.shellArea := by
  have hfold : Meets (Misshapen m.lengths) (fun _ => True ∧
      ∀ f ∈ m.faceIds, (m.corners f).length = 3) m.shellArea := by
    refine meets_foldlM trivial fun f hf total _ => ?_
    refine (faceArea_meets (List.mem_range.mp hf)).bind fun area harea => ?_
    exact ⟨trivial, harea⟩
  refine hfold.mono (fun _ h => triangular_iff.mpr fun f hf => ?_) fun _ => id
  exact h.2 f (List.mem_range.mpr hf)

theorem vertexNormal_meets (hm : m.Indexed) (hv : v < m.vertices.size) :
    Meets (Misshapen m.lengths) (fun _ => ∀ f ∈ m.containing v, (m.corners f).length = 3)
      (m.vertexNormal v) := by
  have hsum : Meets (Misshapen m.lengths) (fun _ => True ∧
      ∀ f ∈ m.containing v, (m.corners f).length = 3) ((m.containing v).foldlM
        (fun sum f => do return sum + (← m.faceNormal f)) (0 : Vec3 α)) := by
    refine meets_foldlM trivial fun f hf sum _ => ?_
    refine (faceNormal_meets (lt_of_mem_corners ((hm.listed v f).mp hf))).bind fun n hn => ?_
    exact ⟨trivial, hn⟩
  unfold vertexNormal
  rw [requireVertex_eq_ok.mpr hv]
  exact hsum.bind fun sum h => h.2

theorem offsetAlongNormals_meets (hm : m.Indexed) (hkept : ∀ v ∈ kept, v < m.vertices.size)
    (distance : α) :
    Meets (Misshapen m.lengths) (fun copy => copy.lengths = m.lengths ∧
      ∀ v ∈ kept, ∀ f ∈ m.containing v, (m.corners f).length = 3)
      (m.offsetAlongNormals kept distance) := by
  have hmoves : Meets (Misshapen m.lengths)
      (fun _ => ∀ v ∈ kept, ∀ f ∈ m.containing v, (m.corners f).length = 3)
      (kept.mapM fun v => do
        let normal ← m.vertexNormal v
        return (v, m.position v + normal * distance)) :=
    meets_mapM fun v hv => (vertexNormal_meets hm (hkept v hv)).bind fun _ h => h
  refine hmoves.bind fun moves h => ⟨?_, h⟩
  rw [lengths, faces_foldl_moveVertex, lengths]

theorem edgeNormal_meets (hm : m.Indexed) (hv : v < m.vertices.size) (hw : w < m.vertices.size) :
    Meets (Misshapen m.lengths) (fun _ => True) (m.edgeNormal v w) := by
  have hrequire {u : VertexId} (hu : u < m.vertices.size) :
      Meets (Misshapen m.lengths) (fun _ => True) (m.requireVertex u) := by
    rw [requireVertex_eq_ok.mpr hu]
    trivial
  refine (hrequire hv).bind fun _ _ => ?_
  split
  · trivial
  · refine (hrequire hw).bind fun _ _ => ?_
    split
    · trivial
    next f hfind =>
      have hf := lt_of_mem_corners ((hm.listed v f).mp (List.mem_of_find?_eq_some hfind))
      exact (faceNormal_meets hf).bind fun n _ => trivial

omit [Scalar α] in
theorem Triangular.not_misshapen (h : m.Triangular) (fault : Fault α) :
    ¬ Misshapen m.lengths fault := by
  rintro ⟨f, n, hf, hn, -⟩
  exact hn (h n (List.mem_of_getElem? hf))

omit [Scalar α] in
theorem lengths_addPolygon (m : Mesh α) (points : List (Vec3 α)) :
    (m.addPolygon points).2.lengths = m.lengths ++ [points.length] := by
  simp [lengths, faces_addPolygon]

omit [Scalar α] in
theorem Triangular.addPolygon (h : m.Triangular) {points : List (Vec3 α)}
    (hpoints : points.length = 3) : (m.addPolygon points).2.Triangular := by
  intro n hn
  rw [lengths_addPolygon, hpoints] at hn
  exact (List.mem_append.mp hn).elim (h n) List.mem_singleton.mp

theorem addFacing_triangular (h : m.Triangular) {points : List (Vec3 α)}
    (hpoints : points.length = 3) (outward : Vec3 α) :
    Yields Triangular (addFacing outward m points) := by
  have hnew := h.addPolygon hpoints
  have hlast : (m.addPolygon points).1 < (m.addPolygon points).2.faces.size := by
    rw [addPolygon_eq, faces_pushFace, Array.size_push]
    exact Nat.lt_succ_self _
  obtain ⟨n, hn⟩ := faceNormal_ok (triangular_iff.mp hnew _ hlast)
  unfold addFacing
  dsimp only
  rw [hn]
  change Yields _ (ite _ _ _)
  split
  · refine (invert_meets hlast).mono (fun m' hm' => ?_) hnew.not_misshapen
    rw [Triangular, hm'.1]
    exact hnew
  · exact hnew

theorem addSkirt_meets {skirt : Mesh α} (hm : m.Indexed) (h : skirt.Triangular)
    {e : VertexId × VertexId} (hv : e.1 < m.vertices.size) (hw : e.2 < m.vertices.size)
    (front back : α) :
    Meets (Misshapen m.lengths) Triangular (addSkirt m front back skirt e) := by
  obtain ⟨v, w⟩ := e
  refine (edgeNormal_meets hm hv hw).bind fun outward _ => ?_
  refine (vertexNormal_meets hm hv).bind fun n _ => (vertexNormal_meets hm hw).bind fun k _ => ?_
  dsimp only
  generalize m.position v + n * front = front₁, m.position v + n * back = back₁,
    m.position w + k * front = front₂, m.position w + k * back = back₂
  have hcorners : ∀ points ∈ [[front₁, back₁, front₂], [front₂, back₁, back₂]],
      points.length = 3 := by simp
  exact (yields_foldlM h fun points hpoints skirt hskirt =>
    addFacing_triangular hskirt (hcorners points hpoints) outward).mono
      (fun _ => id) fun _ => False.elim

theorem edgeSurface_meets (hm : m.Indexed) (front back : α) :
    Meets (Misshapen m.lengths) Triangular (m.edgeSurface front back) := by
  have hfold : Meets (Misshapen m.lengths) (fun skirt : Mesh α => skirt.Triangular ∧
      ∀ e ∈ m.boundaryEdges, True) (m.edgeSurface front back) := by
    refine meets_foldlM (List.forall_mem_nil _) fun e he skirt hskirt => ?_
    obtain ⟨f, hv, hw⟩ := corners_of_boundary he
    refine (addSkirt_meets hm hskirt (hm.existing f _ hv) (hm.existing f _ hw) front back).mono
      (fun _ h => ⟨h, trivial⟩) fun _ => id
  exact hfold.mono (fun _ h => h.1) fun _ => id

end Mesh

namespace Surface

open Mesh

theorem indexed_ofPolygons (polygons : List (List (Vec3 α))) : (ofPolygons polygons).Indexed :=
  List.foldlRecOn _ _ .empty fun _ h p _ => h.addPolygon p

theorem lengths_foldl_addPolygon (m : Mesh α) (polygons : List (List (Vec3 α))) :
    (polygons.foldl (fun m p => (m.addPolygon p).2) m).lengths =
      m.lengths ++ polygons.map List.length := by
  induction polygons generalizing m with
  | nil => simp
  | cons p polygons ih => rw [List.foldl_cons, ih, lengths_addPolygon]; simp

variable [Scalar α]

theorem lengths_merged (surface : Surface α) :
    surface.merged.2.lengths = surface.map List.length := by
  have hlengths : surface.merged.2.lengths = (ofPolygons surface).lengths := by
    have hmerged :=
      congrArg Array.toList (lengths_mergeVertices mergeTolerance (ofPolygons surface))
    rwa [Array.toList_map, Array.toList_map] at hmerged
  rw [hlengths, ofPolygons, lengths_foldl_addPolygon]
  rfl

omit [Scalar α] in
theorem triangles_of_lengths {surface : Surface α}
    (h : ∀ n ∈ surface.map List.length, n = 3) : ∀ p ∈ surface, p.length = 3 :=
  fun _ hp => h _ (List.mem_map_of_mem hp)

/-- Whatever passes the normals, the faces of the back copy are all wound the other way. -/
theorem extrapolate_meets (surface : Surface α) (front back : α) :
    Meets (Misshapen (surface.map List.length)) (fun _ => ∀ p ∈ surface, p.length = 3)
      (surface.extrapolate front back) := by
  have hmerging := (indexed_ofPolygons surface).merging mergeTolerance
  have hlengths := lengths_merged surface
  unfold extrapolate merged at *
  generalize (ofPolygons surface).mergeVertices mergeTolerance = merged at *
  obtain ⟨kept, m⟩ := merged
  dsimp only at *
  rw [← hlengths]
  refine (offsetAlongNormals_meets hmerging.indexed hmerging.kept front).bind fun _ _ => ?_
  refine (offsetAlongNormals_meets hmerging.indexed hmerging.kept back).bind fun copy hcopy => ?_
  rw [← hcopy.1]
  refine (invertAll_meets copy).bind fun _ hback => ?_
  rw [hcopy.1]
  refine (edgeSurface_meets hmerging.indexed front back).bind fun _ _ => ?_
  rw [Triangular, hcopy.1, hlengths] at hback
  exact triangles_of_lengths hback

theorem extrapolatedArea_meets (surface : Surface α) (front back : α) :
    Meets (Misshapen (surface.map List.length)) (fun _ => ∀ p ∈ surface, p.length = 3)
      (surface.extrapolatedArea front back) := by
  have hmerging := (indexed_ofPolygons surface).merging mergeTolerance
  have hlengths := lengths_merged surface
  unfold extrapolatedArea merged at *
  generalize (ofPolygons surface).mergeVertices mergeTolerance = merged at *
  obtain ⟨kept, m⟩ := merged
  dsimp only at *
  rw [← hlengths]
  refine (offsetAlongNormals_meets hmerging.indexed hmerging.kept front).bind fun copy hcopy => ?_
  refine (edgeSurface_meets hmerging.indexed front back).bind fun skirt hskirt => ?_
  rw [← hcopy.1]
  refine (shellArea_meets copy).bind fun _ hfront => ?_
  rw [Triangular, hcopy.1, hlengths] at hfront
  refine ((shellArea_meets skirt).mono (fun _ => id) fun _ => ?_).bind fun _ _ => ?_
  · exact fun hbad => (hskirt.not_misshapen _ hbad).elim
  · exact triangles_of_lengths hfront

omit [Scalar α] in
/-- What passes for triangles only, and faults nothing but misshapen faces, fails for the others. -/
theorem fails_iff {surface : Surface α} {x : Except (Fault α) β}
    (hx : Meets (Misshapen (surface.map List.length)) (fun _ => ∀ p ∈ surface, p.length = 3) x)
    (htriangles : (∀ p ∈ surface, p.length = 3) → Yields (fun _ => True) x) :
    (∃ fault, x = .error fault) ↔ ∃ p ∈ surface, p.length ≠ 3 := by
  constructor
  · rintro ⟨fault, rfl⟩
    by_contra hall
    push Not at hall
    exact htriangles hall
  · rintro ⟨p, hp, hne⟩
    cases x with
    | error fault => exact ⟨fault, rfl⟩
    | ok b => exact absurd (hx p hp) hne

end Surface

end Arbor
