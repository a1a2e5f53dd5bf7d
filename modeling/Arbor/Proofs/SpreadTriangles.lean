import Arbor.Proofs.FittingLayers
import Arbor.Proofs.ShellAreas

namespace Arbor

namespace Vec3

theorem length_sub_eq_dist (v w : Vec3 ℝ) : (v - w).length = dist v.euclidean w.euclidean := by
  rw [dist_eq_norm, ← euclidean_sub, norm_euclidean]

theorem length_sub_le_moved {p q p' q' : Vec3 ℝ} {s : ℝ} (hp : (p' - p).length ≤ s)
    (hq : (q' - q).length ≤ s) : (p - q).length ≤ (p' - q').length + 2 * s := by
  simp only [length_sub_eq_dist] at hp hq ⊢
  have hway := dist_triangle4 p.euclidean p'.euclidean q'.euclidean q.euclidean
  rw [dist_comm p.euclidean p'.euclidean] at hway
  linarith

theorem length_mul_abs (v : Vec3 ℝ) (a : ℝ) : (v * a).length = v.length * |a| := by
  refine length_eq (mul_nonneg v.length_nonneg (abs_nonneg a)) ?_
  rw [mul_pow, sq_abs, length_sq, lengthSq, lengthSq, dot_mul, sq]

theorem length_normalizeOrZero_le (v : Vec3 ℝ) : v.normalizeOrZero.length ≤ 1 := by
  by_cases hv : v = 0
  · rw [hv, Mesh.normalizeOrZero_zero, Mesh.length_zero]
    exact zero_le_one
  · exact (length_eq_one.mpr (dot_normalizeOrZero hv)).le

end Vec3

namespace Triangle

variable {t t' : Triangle ℝ} {distance s : ℝ}

structure Spread (distance : ℝ) (t : Triangle ℝ) : Prop where
  ab : distance ≤ (t.a - t.b).length
  bc : distance ≤ (t.b - t.c).length
  ca : distance ≤ (t.c - t.a).length

theorem spread_iff : t.Spread distance ↔ t.hasCoincidentCorners distance = false := by
  simp only [hasCoincidentCorners, Bool.or_eq_false_iff, decide_eq_false_iff_not, not_lt]
  constructor
  · intro h
    exact ⟨⟨h.ab, h.bc⟩, h.ca⟩
  · rintro ⟨⟨hab, hbc⟩, hca⟩
    exact ⟨hab, hbc, hca⟩

theorem Spread.mono (h : t.Spread distance) (hs : s ≤ distance) : t.Spread s :=
  ⟨hs.trans h.ab, hs.trans h.bc, hs.trans h.ca⟩

theorem Spread.moved (h : t.Spread distance) (ha : (t'.a - t.a).length ≤ s)
    (hb : (t'.b - t.b).length ≤ s) (hc : (t'.c - t.c).length ≤ s) :
    t'.Spread (distance - 2 * s) :=
  ⟨sub_le_iff_le_add.mpr (h.ab.trans (Vec3.length_sub_le_moved ha hb)),
    sub_le_iff_le_add.mpr (h.bc.trans (Vec3.length_sub_le_moved hb hc)),
    sub_le_iff_le_add.mpr (h.ca.trans (Vec3.length_sub_le_moved hc ha))⟩

end Triangle

namespace Mesh

variable {m m' : Mesh ℝ} {kept : List VertexId} {distance s : ℝ} {f v : Nat}

def Spread (distance : ℝ) (m : Mesh ℝ) : Prop :=
  ∀ f < m.faces.size, ∃ t : Triangle ℝ,
    (m.corners f).map m.position = t.toList ∧ t.Spread distance

theorem spread_of_moved {t : Triangle ℝ} {corners : List VertexId} (h : t.Spread distance)
    (hmoved : List.Forall₂ (fun v p => (m.position v - p).length ≤ s) corners t.toList) :
    ∃ t' : Triangle ℝ, corners.map m.position = t'.toList ∧ t'.Spread (distance - 2 * s) := by
  obtain ⟨a, b, c, rfl⟩ := List.length_eq_three.mp hmoved.length_eq
  simp only [Triangle.toList, List.forall₂_cons, List.forall₂_nil_right_iff, and_true] at hmoved
  obtain ⟨ha, hb, hc⟩ := hmoved
  exact ⟨⟨_, _, _⟩, rfl, h.moved ha hb hc⟩

theorem Spread.sound (h : m.Spread distance) (hdistance : degenerateTolerance ≤ distance)
    (hf : f < m.faces.size) : m.isDegenerate f degenerateTolerance = false := by
  obtain ⟨t, ht, hspread⟩ := h f hf
  rw [isDegenerate, triangleOf?_of_points ht]
  exact Triangle.spread_iff.mp (hspread.mono hdistance)

theorem length_vertexNormal_le {n : Vec3 ℝ} (h : m.vertexNormal v = .ok n) : n.length ≤ 1 := by
  obtain ⟨-, -, hsum⟩ := bind_eq_ok.mp h
  obtain ⟨sum, -, hn⟩ := bind_eq_ok.mp hsum
  obtain rfl := Except.ok.inj hn
  exact sum.length_normalizeOrZero_le

theorem Copies.spread {copy : Mesh ℝ} {offset : ℝ} (h : Copies kept m offset copy)
    (hkept : ∀ f v, v ∈ m.corners f → v ∈ kept) (hspread : m.Spread distance) :
    copy.Spread (distance - 2 * |offset|) := by
  intro f hf
  rw [h.faces] at hf
  obtain ⟨t, ht, hspread⟩ := hspread f hf
  have hcorners : copy.corners f = m.corners f := by rw [corners, h.faces, corners]
  refine spread_of_moved hspread ?_
  rw [hcorners, ← ht, List.forall₂_map_right_iff, List.forall₂_same]
  intro v hv
  obtain ⟨n, hn, hposition⟩ := h.position v (hkept f v hv)
  have hmove : m.position v + n * offset - m.position v = n * offset := by ext <;> simp
  rw [hposition, hmove, Vec3.length_mul_abs]
  exact mul_le_of_le_one_left (abs_nonneg offset) (length_vertexNormal_le hn)

theorem vertexNormal_eq_sum {n : FaceId → Vec3 ℝ} (hv : v < m.vertices.size)
    (hn : ∀ f ∈ m.containing v, m.faceNormal f = .ok (n f)) :
    m.vertexNormal v = .ok ((m.containing v).map n |>.foldl (· + ·) 0).normalizeOrZero := by
  have hsum : (m.containing v).foldlM (fun sum f => do return sum + (← m.faceNormal f))
      (0 : Vec3 ℝ) = .ok ((m.containing v).foldl (fun sum f => sum + n f) 0) :=
    foldlM_ok (fun f hf sum => by rw [hn f hf]; rfl) 0
  rw [vertexNormal, requireVertex_eq_ok.mpr hv, hsum, List.foldl_map]
  rfl

theorem area_eq_sum {a : FaceId → ℝ} (ha : ∀ f < m.faces.size, m.faceArea f = .ok (a f)) :
    m.area = .ok (m.faceIds.map a).sum := by
  have hsum : m.area = .ok (m.faceIds.foldl (fun total f => total + a f) 0) :=
    foldlM_ok (fun f hf total => by rw [ha f (List.mem_range.mp hf)]; rfl) 0
  rw [hsum, List.sum_eq_foldl, List.foldl_map]

theorem shellArea_eq_area (hsound : ∀ f < m.faces.size,
    m.isDegenerate f degenerateTolerance = false) : m.shellArea = m.area := by
  refine foldlM_congr (fun total f hf => ?_) 0
  simp [hsound f (List.mem_range.mp hf)]

/-- A merged mesh from which nothing leaves a face out: neither the edges and the boundary, nor the
skirt along it, nor the normals at its vertices, nor the area of a shell. -/
structure Intact (kept : List VertexId) (m : Mesh ℝ) : Prop where
  corners : ∀ f < m.faces.size, (m.corners f).length = 3 ∧ (m.corners f).Nodup
  sound : ∀ f < m.faces.size, m.isDegenerate f degenerateTolerance = false
  edges : m.edges = m.faces.toList.flatMap arrows
  boundary : m.boundaryEdges = outline (m.faces.toList.flatMap arrows)
  skirt : ∀ front back, ∃ skirt, m.edgeSurface front back = .ok skirt ∧
    skirt.faces.size = 2 * m.boundaryEdges.length
  normals : ∃ n : FaceId → Vec3 ℝ, (∀ f < m.faces.size, m.faceNormal f = .ok (n f)) ∧
    ∀ v ∈ kept, (m.containing v).Perm (m.faceIds.filter fun f => v ∈ m.corners f) ∧
      m.vertexNormal v = .ok ((m.containing v).map n |>.foldl (· + ·) 0).normalizeOrZero
  areas : ∃ a : FaceId → ℝ, (∀ f < m.faces.size, m.faceArea f = .ok (a f)) ∧
    m.area = .ok (m.faceIds.map a).sum ∧ m.shellArea = .ok (m.faceIds.map a).sum

namespace Merged

variable (hm : Merged mergeTolerance kept m)
  (hsound : ∀ f < m.faces.size, m.isDegenerate f degenerateTolerance = false)

include hm

theorem perm_containing (v : VertexId) :
    (m.containing v).Perm (m.faceIds.filter fun f => v ∈ m.corners f) := by
  refine (List.perm_ext_iff_of_nodup (hm.indexed.distinct v) (List.nodup_range.filter _)).mpr
    fun f => ?_
  rw [hm.indexed.listed, List.mem_filter, decide_eq_true_iff]
  exact (and_iff_right_of_imp fun hv => List.mem_range.mpr (lt_of_mem_corners hv)).symm

theorem skirt_yields (front back : ℝ) :
    ∃ skirt, m.edgeSurface front back = .ok skirt ∧
      skirt.faces.size = 2 * m.boundaryEdges.length := by
  have hyields : Yields (fun skirt : Mesh ℝ => skirt.faces.size = 2 * m.boundaryEdges.length)
      (m.edgeSurface front back) := by
    refine (hm.foldlM_addSkirt_yields (fun e he => hm.boundary_kept he) .empty
      (List.forall_mem_nil _)).mono (fun skirt hdepicts => ?_) fun _ => id
    rw [hdepicts.length, List.nil_append, length_strips]
  exact yields_iff.mp hyields

include hsound

theorem intact : m.Intact kept := by
  have hlength := hm.contracted.triangular
  have hself (p q : Vec3 ℝ) (_ : (p - q).length < mergeTolerance) :
      (p - p).length < degenerateTolerance := length_sub_self p ▸ degenerateTolerance_pos
  constructor
  case corners => exact fun f hf => ⟨hlength f hf, hm.nodup hself hf (hsound f hf)⟩
  case sound => exact hsound
  case edges => exact edges_eq_flatMap hsound
  case boundary => exact boundaryEdges_eq_outline hsound
  case skirt => exact hm.skirt_yields
  case normals =>
    choose! n hn using fun f (hf : f < m.faces.size) => faceNormal_ok (hlength f hf)
    refine ⟨n, hn, fun v hv => ⟨hm.perm_containing v, ?_⟩⟩
    refine vertexNormal_eq_sum (hm.kept_existing v hv) fun f hf => hn f ?_
    exact lt_of_mem_corners ((hm.indexed.listed v f).mp hf)
  case areas =>
    choose! a ha using fun f (hf : f < m.faces.size) => faceArea_ok (hlength f hf)
    have harea := area_eq_sum ha
    exact ⟨a, ha, harea, (shellArea_eq_area hsound).trans harea⟩

end Merged

end Mesh

def Surface.Spread (surface : Surface ℝ) : Prop :=
  ∀ p ∈ surface, ∃ t : Triangle ℝ, p = t.toList ∧ t.Spread LeafPattern.filterTolerance

namespace LeafPattern

theorem spread_of_surface {leaf : LeafPattern ℝ} {pose : Pose ℝ} {surface : Surface ℝ}
    (h : leaf.surface pose = .ok surface) : surface.Spread := by
  obtain ⟨out, -, hout⟩ := bind_eq_ok.mp h
  obtain rfl := Except.ok.inj hout
  intro p hp
  have husable := (List.mem_filter.mp hp).2
  obtain ⟨a, b, c, rfl⟩ := List.length_eq_three.mp (length_of_isUsable husable)
  refine ⟨⟨a, b, c⟩, rfl, Triangle.spread_iff.mpr ?_⟩
  simpa [isUsable] using husable

end LeafPattern

namespace Surface

open Mesh LeafPattern

variable {surface : Surface ℝ} {points : List (Vec3 ℝ)} {f : Nat}

/-- A corner comes to be the kept vertex that it merges with, less than the tolerance away, and
vertices stay where they are. -/
theorem moved_of_merged (hf : surface[f]? = some points) :
    List.Forall₂ (fun v p => v ∈ surface.merged.1 ∧
      (surface.merged.2.position v - p).length < mergeTolerance)
      (surface.merged.2.corners f) points := by
  have hself : ∀ f, ∀ v ∈ (ofPolygons surface).corners f,
      (ofPolygons surface).gap v v < mergeTolerance := fun _ v _ => gap_self_lt _ v
  rw [Surface.merged, corners_mergeVertices hself, ← points_ofPolygons hf,
    List.forall₂_map_left_iff, List.forall₂_map_right_iff, List.forall₂_same]
  intro v hv
  rw [(progress_mergeVertices hself).position]
  exact representative_kept hself hv

namespace Spread

variable (h : surface.Spread)

include h

theorem length_eq : ∀ p ∈ surface, p.length = 3 := by
  intro p hp
  obtain ⟨t, rfl, -⟩ := h p hp
  rfl

theorem merged : surface.merged.2.Spread (filterTolerance - 2 * mergeTolerance) := by
  intro f hf
  rw [size_merged] at hf
  obtain ⟨t, ht, hspread⟩ := h _ (List.getElem_mem hf)
  have hmoved := moved_of_merged (ht ▸ List.getElem?_eq_getElem hf)
  exact spread_of_moved hspread (hmoved.imp fun v p hclose => hclose.2.le)

theorem exists_triangle (hne : surface ≠ []) {front : ℝ}
    (hfront : 2 * |front| + 2 * mergeTolerance + degenerateTolerance ≤ filterTolerance)
    (back : ℝ) :
    ∃ shell, surface.extrapolate front back = .ok shell ∧ ∃ t, t ∈ shell.triangles := by
  obtain ⟨copy, _, _, _, shell, -, hcopies, -, -, -, -, hshell, htriangles⟩ :=
    triangles_of_extrapolate h.length_eq front back
  have hspread := hcopies.spread (merged_triangles h.length_eq).corners_kept h.merged
  have hsize : 0 < copy.faces.size := by
    rw [hcopies.faces, size_merged]
    exact List.length_pos_of_ne_nil hne
  obtain ⟨t, ht, -⟩ := hspread 0 hsize
  have hmem : t ∈ copy.triangles := by
    refine List.mem_filterMap.mpr ⟨0, List.mem_filter.mpr ⟨List.mem_range.mpr hsize, ?_⟩,
      triangleOf?_of_points ht⟩
    rw [hspread.sound (by linarith) hsize]
    rfl
  refine ⟨shell, hshell, t, ?_⟩
  rw [htriangles]
  exact List.mem_append_left _ (List.mem_append_left _ hmem)

end Spread

/-- Whatever leaf is traced at whatever pose, its triangles are spread. Merging leaves all faces of
spread triangles: each corner moves to a kept vertex less than the tolerance away, the three corners
of a face stay apart, and nothing that is derived from the merged surface leaves a face out. An
offset copy has all their areas, too, unless the offset itself brings corners together. -/
theorem spread_triangles_survive :
    (∀ (leaf : LeafPattern ℝ) (pose : Pose ℝ) surface, leaf.surface pose = .ok surface →
      surface.Spread) ∧
    ∀ (surface : Surface ℝ) kept m, surface.Spread → surface.merged = (kept, m) →
      m.faces.size = surface.length ∧
      (∀ (f : FaceId) points, surface[f]? = some points → List.Forall₂ (fun v p => v ∈ kept ∧
        (m.position v - p).length < mergeTolerance) (m.corners f) points) ∧
      m.Intact kept ∧
      ∀ offset, 2 * |offset| + 2 * mergeTolerance + degenerateTolerance ≤ filterTolerance →
        ∃ copy, m.offsetAlongNormals kept offset = .ok copy ∧
          copy.faces = m.faces ∧ copy.shellArea = copy.area := by
  refine ⟨fun leaf pose surface => spread_of_surface, fun surface kept m h hm => ?_⟩
  obtain rfl : surface.merged.1 = kept := congrArg Prod.fst hm
  obtain rfl : surface.merged.2 = m := congrArg Prod.snd hm
  have hmerged := merged_triangles h.length_eq
  refine ⟨size_merged surface, fun f points => moved_of_merged, hmerged.intact fun f => ?_,
    fun offset hoffset => ?_⟩
  · refine h.merged.sound ?_
    norm_num [filterTolerance, mergeTolerance, degenerateTolerance]
  · obtain ⟨copy, hcopy, hcopies⟩ := yields_iff.mp (hmerged.copies_yields offset)
    have hspread := hcopies.spread hmerged.corners_kept h.merged
    refine ⟨copy, hcopy, hcopies.faces, shellArea_eq_area fun f => hspread.sound ?_⟩
    linarith

theorem spread_splitSquare : splitSquare.Spread := by
  have hfilter : (filterTolerance : ℝ) ≤ 1 := by norm_num [filterTolerance]
  have hspread (a b c : Vec3 ℝ) (hab : 1 ≤ (a - b).lengthSq) (hbc : 1 ≤ (b - c).lengthSq)
      (hca : 1 ≤ (c - a).lengthSq) : (⟨a, b, c⟩ : Triangle ℝ).Spread filterTolerance :=
    ⟨not_lt.mp (not_close hfilter hab), not_lt.mp (not_close hfilter hbc),
      not_lt.mp (not_close hfilter hca)⟩
  intro p hp
  rcases List.mem_pair.mp hp with rfl | rfl
  all_goals
    refine ⟨⟨_, _, _⟩, rfl, hspread _ _ _ ?_ ?_ ?_⟩ <;> norm_num [lengthSq_sub]

theorem spread_triangles_survive_splitSquare :
    (∃ surface, sail.surface alongFloor = .ok surface ∧ surface.Spread) ∧
    splitSquare.Spread ∧ ∃ m copy, splitSquare.merged = ([0, 1, 2, 5], m) ∧
      m.faces = #[[0, 1, 2], [0, 2, 5]] ∧ m.Intact [0, 1, 2, 5] ∧
      m.offsetAlongNormals [0, 1, 2, 5] degenerateTolerance = .ok copy ∧
      copy.shellArea = copy.area := by
  obtain ⟨hleaves, hsurfaces⟩ := spread_triangles_survive
  obtain ⟨-, -, hintact, hcopies⟩ :=
    hsurfaces _ _ _ spread_splitSquare merged_splitSquare
  obtain ⟨copy, hcopy, -, harea⟩ := hcopies degenerateTolerance (by
    norm_num [filterTolerance, mergeTolerance, degenerateTolerance, abs_of_pos])
  exact ⟨⟨_, surface_sail, hleaves _ _ _ surface_sail⟩, spread_splitSquare, _, copy,
    merged_splitSquare, rfl, hintact, hcopy, harea⟩

end Surface

end Arbor
