import Arbor.Proofs.FlatSkirts

namespace Arbor

variable {β : Type}

namespace Mesh

section Labels

variable {α : Type} {m other : Mesh α} {names names' : List β} {faces faces' : List (List β)}

abbrev Reads (names : List β) (corners : List VertexId) (t : List β) : Prop :=
  List.Forall₂ (fun v b => names[v]? = some b) corners t

/-- The vertices have these names, and the faces run through them in this order. -/
structure Labels (names : List β) (m : Mesh α) (faces : List (List β)) : Prop where
  size : names.length = m.vertices.size
  faces : List.Forall₂ (Reads names) m.faces.toList faces

namespace Labels

theorem reads_append {corners : List VertexId} {t : List β} (h : Reads names corners t) :
    Reads (names ++ names') corners t :=
  h.imp fun _ _ hv => List.getElem?_append_left (List.getElem?_eq_some_iff.mp hv).1 ▸ hv

theorem reads_shift {corners : List VertexId} {t : List β} (h : Reads names' corners t) :
    Reads (names ++ names') (corners.map (· + names.length)) t := by
  refine List.forall₂_map_left_iff.mpr (h.imp fun v b hv => ?_)
  rw [Nat.add_comm, List.getElem?_append_right (Nat.le_add_right ..), Nat.add_sub_cancel_left]
  exact hv

theorem append (h : Labels names m faces) (hother : Labels names' other faces') :
    Labels (names ++ names') (m.append other) (faces ++ faces') := by
  refine ⟨by rw [List.length_append, h.size, hother.size, size_append], ?_⟩
  rw [faces_append, ← h.size]
  exact List.rel_append (h.faces.imp fun _ _ => reads_append)
    (List.forall₂_map_left_iff.mpr (hother.faces.imp fun _ _ => reads_shift))

theorem turned (h : Labels names m faces) :
    Labels names { m with faces := m.faces.map turned } (faces.map Arbor.turned) := by
  refine ⟨h.size, ?_⟩
  rw [Array.toList_map]
  refine List.forall₂_map_left_iff.mpr (List.forall₂_map_right_iff.mpr ?_)
  exact h.faces.imp fun _ _ => forall₂_turned

theorem addPolygon (h : Labels names m faces) {t : List β} {points : List (Vec3 α)}
    (hlength : t.length = points.length) :
    Labels (names ++ t) (m.addPolygon points).2 (faces ++ [t]) := by
  have hreads : Reads (names ++ t) (List.range' m.vertices.size points.length) t := by
    refine List.forall₂_iff_get.mpr ⟨by rw [List.length_range', hlength], fun i hi hi' => ?_⟩
    simp only [List.get_eq_getElem, List.getElem_range', one_mul]
    rw [← h.size, List.getElem?_append_right (Nat.le_add_right ..), Nat.add_sub_cancel_left,
      List.getElem?_eq_getElem hi']
  refine ⟨?_, ?_⟩
  · rw [addPolygon_eq, size_pushFace, size_addVertices, List.length_append, h.size, hlength]
  · rw [faces_addPolygon, Array.toList_push]
    exact List.rel_append (h.faces.imp fun _ _ => reads_append) (.cons hreads .nil)

theorem foldl_addPolygon (h : Labels names m faces) (ts : List (List β)) (place : β → Vec3 α) :
    Labels (names ++ ts.flatten)
      ((ts.map (List.map place)).foldl (fun m p => (m.addPolygon p).2) m) (faces ++ ts) := by
  induction ts generalizing m names faces with
  | nil => simpa using h
  | cons t ts ih =>
      rw [List.flatten_cons, List.map_cons, List.foldl_cons, List.append_cons faces,
        ← List.append_assoc]
      exact ih (h.addPolygon (List.length_map place).symm)

theorem ofPolygons (ts : List (List β)) (place : β → Vec3 α) :
    Labels ts.flatten (ofPolygons (ts.map (List.map place))) ts := by
  have hempty : Labels ([] : List β) ({} : Mesh α) [] := ⟨rfl, .nil⟩
  exact hempty.foldl_addPolygon ts place

theorem map_eq (h : Labels names m faces) {name : VertexId → β}
    (hname : ∀ (v : Nat) b, names[v]? = some b → name v = b) :
    m.faces.toList.map (List.map name) = faces := by
  rw [← List.forall₂_eq_eq_eq, List.forall₂_map_left_iff]
  refine h.faces.imp fun corners t ht => ?_
  rw [← List.forall₂_eq_eq_eq, List.forall₂_map_left_iff]
  exact ht.imp fun v b => hname v b

end Labels

end Labels

theorem Copies.labels {α : Type} [Scalar α] {m copy : Mesh α} {kept : List VertexId}
    {distance : α} (h : Copies kept m distance copy) (hm : m.Indexed) (side : Side) :
    Labels ((List.range m.vertices.size).map (·, side)) copy
      (m.faces.toList.map (List.map (·, side))) := by
  refine ⟨by simp [h.size], ?_⟩
  rw [h.faces]
  refine List.forall₂_map_right_iff.mpr (List.forall₂_same.mpr fun corners hcorners => ?_)
  refine List.forall₂_map_right_iff.mpr (List.forall₂_same.mpr fun v hv => ?_)
  obtain ⟨f, hf⟩ := List.mem_iff_getElem?.mp hcorners
  have hlt := hm.existing f v (corners_eq (Array.getElem?_toList ▸ hf) ▸ hv)
  simp [hlt]

theorem gap_self_lt (m : Mesh ℝ) (v : VertexId) : m.gap v v < mergeTolerance := by
  rw [gap, length_sub_self]
  norm_num [mergeTolerance]

end Mesh

namespace Surface

open Mesh

variable {surface : Surface ℝ} {kept : List VertexId} {m : Mesh ℝ} {n : Vec3 ℝ} {front back : ℝ}

theorem labels_of_skirt {α : Type} [Scalar α] {surface : Surface α} {kept : List VertexId}
    {m skirt shell : Mesh α} {front back : α} (hm : surface.merged = (kept, m))
    (hmerged : Merged mergeTolerance kept m) (hskirt : m.edgeSurface front back = .ok skirt)
    {strips : List (List (VertexId × Side))}
    (hstrips : Labels (m.boundaryEdges.flatMap stripTriangles).flatten skirt strips)
    (hshell : surface.extrapolate front back = .ok shell) :
    Labels m.shellCorners shell (m.faces.toList.map (List.map (·, .front)) ++
      m.faces.toList.map (fun t => turned (t.map (·, .back))) ++ strips) := by
  obtain rfl : surface.merged.1 = kept := congrArg Prod.fst hm
  obtain rfl : surface.merged.2 = m := congrArg Prod.snd hm
  obtain ⟨frontCopy, hfront, hfrontCopy⟩ := yields_iff.mp (hmerged.copies_yields front)
  obtain ⟨backCopy, hback, hbackCopy⟩ := yields_iff.mp (hmerged.copies_yields back)
  rw [extrapolate_eq hfront hback (hbackCopy.triangular hmerged) hskirt] at hshell
  obtain rfl := Except.ok.inj hshell
  have hbackFaces := (hbackCopy.labels hmerged.indexed .back).turned
  rw [List.map_map] at hbackFaces
  exact ((hfrontCopy.labels hmerged.indexed .front).append hbackFaces).append hstrips

theorem extrapolate_labels (hm : surface.merged = (kept, m))
    (hmerged : Merged mergeTolerance kept m) (hflat : m.Facing n) (hoffsets : back < front)
    {shell : Mesh ℝ}
    (hshell : surface.extrapolate front back = .ok shell) :
    Labels m.shellCorners shell (wound m.faces.toList m.boundaryEdges) :=
  labels_of_skirt hm hmerged (hflat.edgeSurface_eq hmerged hoffsets)
    (.ofPolygons _ (m.offsetPoint n front back)) hshell

theorem corner_of_merged (hm : surface.merged = (kept, m)) {v : VertexId} (hv : v ∈ kept) :
    ∃ f, v ∈ m.corners f := by
  obtain rfl : surface.merged.1 = kept := congrArg Prod.fst hm
  obtain rfl : surface.merged.2 = m := congrArg Prod.snd hm
  exact (mem_mergeVertices fun f v _ => gap_self_lt _ v).mp hv

/-- The shell over triangles that all face one way when their corners have merged, no two of them
along an edge in the same direction. No triangle of the skirt is turned; all stand upright and face
away from the triangle that their edge belongs to. With corners named by vertex and side, the shell
runs along every edge as often one way as the other. -/
theorem flat_shell_wound (htriangles : ∀ p ∈ surface, p.length = 3)
    (hm : surface.merged = (kept, m)) (hflat : m.Facing n)
    (hedges : ∀ e, (m.faces.toList.flatMap arrows).count e ≤ 1) (hoffsets : back < front) :
    ∃ skirt shell, m.edgeSurface front back = .ok skirt ∧
      surface.extrapolate front back = .ok shell ∧
      skirt = ofPolygons ((m.boundaryEdges.flatMap stripTriangles).map
        (List.map (m.offsetPoint n front back))) ∧
      (∀ f < skirt.faces.size, ∃ e k, m.boundaryEdges[f / 2]? = some e ∧
        skirt.faceNormal f = .ok k ∧ k.dot k = 1 ∧ k.dot n = 0 ∧
        (∃ g, e ∈ arrows (m.corners g)) ∧ ∀ g, e ∈ arrows (m.corners g) →
          ∀ u ∈ m.corners g, u ≠ e.1 → u ≠ e.2 → (m.position u - m.position e.1).dot k < 0) ∧
      (∀ corners ∈ shell.faces.toList, ∀ u ∈ corners, ∃ c, m.shellCorners[u]? = some c ∧
        shell.position u = m.offsetPoint n front back c) ∧
      ∀ a b : VertexId × Side,
        ((shell.faces.toList.map (List.map m.shellCorner)).flatMap arrows).count (a, b) =
          ((shell.faces.toList.map (List.map m.shellCorner)).flatMap arrows).count (b, a) := by
  have hmerged := merged_triangles htriangles
  rw [hm] at hmerged
  have hskirt := hflat.edgeSurface_eq hmerged hoffsets
  obtain ⟨shell, hshell, hdepicts⟩ := yields_iff.mp (extrapolate_yields hm hmerged front back)
  refine ⟨_, shell, hskirt, hshell, rfl, fun f hf => ?_, fun corners hcorners u hu => ?_,
    fun a b => ?_⟩
  · exact hflat.normal_of_skirt hmerged hoffsets hskirt hf
  · obtain ⟨c, hc, hkept, k, hk, hposition⟩ := hdepicts.corner hcorners hu
    obtain ⟨f, hf⟩ := corner_of_merged hm hkept
    obtain rfl := Except.ok.inj (hk.symm.trans (hflat.vertexNormal_eq hmerged.indexed hf))
    exact ⟨c, hc, hposition⟩
  · have hlabels := extrapolate_labels hm hmerged hflat hoffsets hshell
    rw [hlabels.map_eq fun u c hu => by rw [shellCorner, hu, Option.getD_some],
      boundaryEdges_eq_outline hflat.sound]
    exact balanced_iff.mp (balanced_wound hedges) a b

theorem unit_up : (⟨0, 0, 1⟩ : Vec3 ℝ).dot ⟨0, 0, 1⟩ = 1 := by simp [Vec3.dot]

noncomputable def splitSquare : Surface ℝ :=
  [[⟨0, 0, 0⟩, ⟨1, 0, 0⟩, ⟨1, 1, 0⟩], [⟨0, 0, 0⟩, ⟨1, 1, 0⟩, ⟨0, 1, 0⟩]]

theorem splitSquare_far {tolerance : ℝ} (ht : tolerance ≤ 1) :
    [0, 1, 2, 5].Pairwise fun v w =>
      ¬ ((ofPolygons splitSquare).position v - (ofPolygons splitSquare).position w).length <
        tolerance := by
  have h0 : (ofPolygons splitSquare).position 0 = ⟨0, 0, 0⟩ := rfl
  have h1 : (ofPolygons splitSquare).position 1 = ⟨1, 0, 0⟩ := rfl
  have h2 : (ofPolygons splitSquare).position 2 = ⟨1, 1, 0⟩ := rfl
  have h5 : (ofPolygons splitSquare).position 5 = ⟨0, 1, 0⟩ := rfl
  simp only [List.pairwise_cons, List.forall_mem_cons, List.not_mem_nil, false_imp_iff,
    implies_true, and_true, List.Pairwise.nil]
  refine ⟨⟨?_, ?_, ?_⟩, ⟨?_, ?_⟩, ?_⟩ <;> refine not_close ht ?_ <;>
    norm_num [lengthSq_sub, h0, h1, h2, h5]

theorem merged_splitSquare : splitSquare.merged =
    ([0, 1, 2, 5], ((ofPolygons splitSquare).relabel 1 3 0).relabel 1 4 2) := by
  have hpos : (0 : ℝ) < mergeTolerance := by norm_num [mergeTolerance]
  have ht : (mergeTolerance : ℝ) ≤ 1 := by norm_num [mergeTolerance]
  have hapart := splitSquare_far ht
  have h3 : (ofPolygons splitSquare).position 3 = (ofPolygons splitSquare).position 0 := rfl
  have h4 : (ofPolygons splitSquare).position 4 = (ofPolygons splitSquare).position 2 := rfl
  generalize hm : ofPolygons splitSquare = m at *
  simp only [List.pairwise_cons, List.forall_mem_cons] at hapart
  have hc0 : m.corners 0 = [0, 1, 2] := hm ▸ rfl
  have hc1 : m.corners 1 = [3, 4, 5] := hm ▸ rfl
  have hf : m.faceIds = [0, 1] := hm ▸ rfl
  have hr : List.range 3 = [0, 1, 2] := rfl
  rw [merged, hm]
  simp [mergeVertices, hf, mergeFace, hc0, hc1, hr, mergeCorner, keptAt?, hapart, h3, h4,
    length_sub_self, hpos, corners_relabel]

theorem facing_splitSquare :
    (((ofPolygons splitSquare).relabel 1 3 0).relabel 1 4 2).Facing ⟨0, 0, 1⟩ := by
  have ht : (degenerateTolerance : ℝ) ≤ 1 := by norm_num [degenerateTolerance]
  have hapart := splitSquare_far ht
  simp only [List.pairwise_cons, List.forall_mem_cons] at hapart
  have hc0 : (ofPolygons splitSquare).corners 0 = [0, 1, 2] := rfl
  have hc1 : (ofPolygons splitSquare).corners 1 = [3, 4, 5] := rfl
  have hright : (⟨⟨0, 0, 0⟩, ⟨1, 0, 0⟩, ⟨1, 1, 0⟩⟩ : Triangle ℝ).normal = ⟨0, 0, 1⟩ :=
    Vec3.normal_eq unit_up one_pos (by ext <;> norm_num)
  have hleft : (⟨⟨0, 0, 0⟩, ⟨1, 1, 0⟩, ⟨0, 1, 0⟩⟩ : Triangle ℝ).normal = ⟨0, 0, 1⟩ :=
    Vec3.normal_eq unit_up one_pos (by ext <;> norm_num)
  refine ⟨unit_up, fun f hf => ?_, fun f hf => ?_⟩ <;>
    obtain rfl | rfl := Nat.le_one_iff_eq_zero_or_eq_one.mp (Nat.le_of_lt_succ hf)
  · simp [isDegenerate, hc0, corners_relabel, triangleOf?, Triangle.hasCoincidentCorners, hapart,
      length_sub_comm ((ofPolygons splitSquare).position 2)]
  · simp [isDegenerate, hc1, corners_relabel, triangleOf?, Triangle.hasCoincidentCorners, hapart,
      length_sub_comm ((ofPolygons splitSquare).position 5)]
  · exact congrArg Except.ok hright
  · exact congrArg Except.ok hleft

theorem flat_shell_wound_splitSquare :
    ∃ m skirt shell, splitSquare.merged = ([0, 1, 2, 5], m) ∧ m.Facing ⟨0, 0, 1⟩ ∧
      m.faces = #[[0, 1, 2], [0, 2, 5]] ∧ m.edgeSurface 1 (-1) = .ok skirt ∧
      splitSquare.extrapolate 1 (-1) = .ok shell ∧
      ∀ a b : VertexId × Side,
        ((shell.faces.toList.map (List.map m.shellCorner)).flatMap arrows).count (a, b) =
          ((shell.faces.toList.map (List.map m.shellCorner)).flatMap arrows).count (b, a) := by
  have hfaces : (((ofPolygons splitSquare).relabel 1 3 0).relabel 1 4 2).faces =
      #[[0, 1, 2], [0, 2, 5]] := rfl
  have hedges : ∀ e, ((((ofPolygons splitSquare).relabel 1 3 0).relabel 1 4 2).faces.toList.flatMap
      arrows).count e ≤ 1 := by
    rw [hfaces]
    exact List.nodup_iff_count_le_one.mp (by decide)
  obtain ⟨skirt, shell, hskirt, hshell, -, -, -, hwound⟩ := flat_shell_wound
    (by simp [splitSquare]) merged_splitSquare facing_splitSquare hedges
    (by norm_num : (-1 : ℝ) < 1)
  exact ⟨_, skirt, shell, merged_splitSquare, facing_splitSquare, hfaces, hskirt, hshell, hwound⟩

noncomputable def narrowing : Surface ℝ :=
  [[⟨9e-9, 0, 0⟩, ⟨-1, -1, 0⟩, ⟨1, -1, 0⟩], [⟨0, 0, 0⟩, ⟨1.05e-7, 0, 0⟩, ⟨0, 1, 0⟩]]

theorem position_narrowing :
    let p := (ofPolygons narrowing).position
    p 0 = ⟨9e-9, 0, 0⟩ ∧ p 1 = ⟨-1, -1, 0⟩ ∧ p 2 = ⟨1, -1, 0⟩ ∧ p 3 = ⟨0, 0, 0⟩ ∧
      p 4 = ⟨1.05e-7, 0, 0⟩ ∧ p 5 = ⟨0, 1, 0⟩ :=
  ⟨rfl, rfl, rfl, rfl, rfl, rfl⟩

theorem merged_narrowing :
    narrowing.merged = ([0, 1, 2, 4, 5], (ofPolygons narrowing).relabel 1 3 0) := by
  have hpos : (0 : ℝ) < mergeTolerance := by norm_num [mergeTolerance]
  obtain ⟨h0, h1, h2, h3, h4, h5⟩ := position_narrowing
  generalize hm : ofPolygons narrowing = m at *
  have hclose : (m.position 0 - m.position 3).length < mergeTolerance := by
    rw [Vec3.length_lt_iff hpos, h0, h3]
    norm_num [lengthSq_sub, mergeTolerance]
  have hapart : [0, 1, 2, 4, 5].Pairwise fun v w =>
      ¬ (m.position v - m.position w).length < mergeTolerance := by
    simp only [List.pairwise_cons, List.forall_mem_cons, Vec3.length_lt_iff hpos, h0, h1, h2, h4,
      h5]
    norm_num [lengthSq_sub, mergeTolerance]
  simp only [List.pairwise_cons, List.forall_mem_cons] at hapart
  have hc0 : m.corners 0 = [0, 1, 2] := hm ▸ rfl
  have hc1 : m.corners 1 = [3, 4, 5] := hm ▸ rfl
  have hf : m.faceIds = [0, 1] := hm ▸ rfl
  have hr : List.range 3 = [0, 1, 2] := rfl
  rw [merged, hm]
  simp [mergeVertices, hf, mergeFace, hc0, hc1, hr, mergeCorner, keptAt?, hapart, hclose,
    corners_relabel]

theorem boundary_narrowing :
    ((ofPolygons narrowing).relabel 1 3 0).boundaryEdges = [(0, 1), (1, 2), (2, 0)] := by
  obtain ⟨h0, h1, h2, -, h4, -⟩ := position_narrowing
  have hf : ((ofPolygons narrowing).relabel 1 3 0).faceIds = [0, 1] := rfl
  have hc0 : (ofPolygons narrowing).corners 0 = [0, 1, 2] := rfl
  have hc1 : (ofPolygons narrowing).corners 1 = [3, 4, 5] := rfl
  generalize ofPolygons narrowing = m at *
  have hshort : (m.position 0 - m.position 4).length < degenerateTolerance := by
    rw [Vec3.length_lt_iff degenerateTolerance_pos, h0, h4]
    norm_num [lengthSq_sub, degenerateTolerance]
  have hsound : ¬ (m.position 0 - m.position 1).length < degenerateTolerance ∧
      ¬ (m.position 1 - m.position 2).length < degenerateTolerance ∧
      ¬ (m.position 2 - m.position 0).length < degenerateTolerance := by
    simp only [Vec3.length_lt_iff degenerateTolerance_pos, h0, h1, h2]
    norm_num [lengthSq_sub, degenerateTolerance]
  have he : (m.relabel 1 3 0).edges = [(0, 1), (1, 2), (2, 0)] := by
    simp [edges, hf, hc0, hc1, corners_relabel, isDegenerate, triangleOf?,
      Triangle.hasCoincidentCorners, hshort, hsound]
  rw [boundaryEdges, he]
  decide

/-- That triangles face one way before their corners merge is not enough. One that becomes
degenerate has its copies in the shell, but no skirt. -/
theorem narrowing_not_wound :
    (∀ p ∈ narrowing, ∃ t : Triangle ℝ, p = t.toList ∧
      t.hasCoincidentCorners degenerateTolerance = false ∧ t.normal = ⟨0, 0, 1⟩ ∧
      ∀ q ∈ p, q.z = 0) ∧
    ∃ kept m shell, narrowing.merged = (kept, m) ∧
      (∀ e, (m.faces.toList.flatMap arrows).count e ≤ 1) ∧
      (∀ e : Sym2 VertexId, edgeFaces m.faces.toList e ≤ 2) ∧
      narrowing.extrapolate 1 (-1) = .ok shell ∧
      ∃ a b : VertexId × Side,
        ((shell.faces.toList.map (List.map m.shellCorner)).flatMap arrows).count (a, b) ≠
          ((shell.faces.toList.map (List.map m.shellCorner)).flatMap arrows).count (b, a) := by
  have hsound (p q r : Vec3 ℝ) : (⟨p, q, r⟩ : Triangle ℝ).hasCoincidentCorners
      degenerateTolerance = false ↔ ¬ (p - q).lengthSq < degenerateTolerance ^ 2 ∧
        ¬ (q - r).lengthSq < degenerateTolerance ^ 2 ∧
        ¬ (r - p).lengthSq < degenerateTolerance ^ 2 := by
    simp [Triangle.hasCoincidentCorners, Vec3.length_lt_iff degenerateTolerance_pos, and_assoc]
  have htriangles : ∀ p ∈ narrowing, p.length = 3 := by simp [narrowing]
  have hmerged := merged_triangles htriangles
  rw [merged_narrowing] at hmerged
  obtain ⟨shell, hshell, hdepicts⟩ :=
    yields_iff.mp (extrapolate_yields merged_narrowing hmerged 1 (-1))
  have hfaces : ((ofPolygons narrowing).relabel 1 3 0).faces.toList = [[0, 1, 2], [0, 4, 5]] := rfl
  refine ⟨fun p hp => ?_, _, _, shell, merged_narrowing, ?_, fun e => List.countP_le_length,
    hshell, ?_⟩
  · rcases List.mem_pair.mp hp with rfl | rfl
    · refine ⟨⟨_, _, _⟩, rfl, (hsound ..).mpr ?_, ?_, by simp⟩
      · norm_num [lengthSq_sub, degenerateTolerance]
      · exact Vec3.normal_eq unit_up two_pos (by ext <;> norm_num)
    · refine ⟨⟨_, _, _⟩, rfl, (hsound ..).mpr ?_, ?_, by simp⟩
      · norm_num [lengthSq_sub, degenerateTolerance]
      · exact Vec3.normal_eq unit_up (by norm_num : (0 : ℝ) < 1.05e-7) (by ext <;> norm_num)
  · rw [hfaces]
    exact List.nodup_iff_count_le_one.mp (by decide)
  · -- the edge between corners 0 and 4 belongs to one face of the shell only
    by_contra hwound
    push Not at hwound
    have heven := even_of_balanced (balanced_iff.mpr hwound)
      (by decide : ((0, .front) : VertexId × Side) ≠ (4, .front))
    rw [(hdepicts.sides fun u c hu => by rw [shellCorner, hu, Option.getD_some]).count_eq,
      hfaces, boundary_narrowing] at heven
    revert heven
    decide

end Surface

end Arbor
