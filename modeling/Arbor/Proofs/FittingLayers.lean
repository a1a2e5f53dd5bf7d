import Arbor.Proofs.EnclosingBoxes
import Arbor.Proofs.FlatShells
import Arbor.Proofs.LeafLayers

namespace Arbor

variable {α β : Type}

/-- The same triangles in the same order. Those after the first `n` may be wound the other way. -/
structure SameFaces (n : Nat) (faces faces' : List (List β)) : Prop where
  first : faces.take n = faces'.take n
  all : List.Forall₂ (fun t u => u = t ∨ u = turned t) faces faces'

namespace SameFaces

variable {n : Nat} {xs ys zs : List (List β)}

theorem symm (h : SameFaces n xs ys) : SameFaces n ys xs := by
  refine ⟨h.first.symm, List.Forall₂.flip (h.all.imp fun t u htu => ?_)⟩
  rcases htu with rfl | rfl
  · exact .inl rfl
  · exact .inr (turned_turned t).symm

theorem trans (h : SameFaces n xs ys) (h' : SameFaces n ys zs) : SameFaces n xs zs := by
  obtain ⟨hfirst, hall⟩ := h'
  refine ⟨h.first.trans hfirst, ?_⟩
  replace h := h.all
  clear hfirst
  induction h generalizing zs with
  | nil => exact hall
  | @cons t u xs ys htu _ ih =>
      obtain ⟨w, zs, huw, hrest, rfl⟩ := List.forall₂_cons_left_iff.mp hall
      refine .cons ?_ (ih hrest)
      rcases htu with rfl | rfl
      · exact huw
      · rw [turned_turned] at huw
        exact huw.symm

end SameFaces

namespace Mesh

variable [Scalar α] {place : β → Vec3 α → Prop} {m shell : Mesh α} {names : List β}
  {faces : List (List β)} {c : VertexId × Side} {p : Vec3 α}

def shellFaces (m shell : Mesh α) : List (List (VertexId × Side)) :=
  shell.faces.toList.map (List.map m.shellCorner)

/-- A face of the shell over `m` has a corner of this name there. -/
def CornerAt (m shell : Mesh α) (c : VertexId × Side) (p : Vec3 α) : Prop :=
  ∃ corners ∈ shell.faces.toList, ∃ u ∈ corners, m.shellCorner u = c ∧ shell.position u = p

def cornerPoints (m : Mesh α) : List (Vec3 α) := m.faces.toList.flatMap (List.map m.position)

theorem CornerAt.mem_cornerPoints (h : m.CornerAt shell c p) : p ∈ shell.cornerPoints := by
  obtain ⟨corners, hcorners, u, hu, -, rfl⟩ := h
  exact List.mem_flatMap.mpr ⟨corners, hcorners, List.mem_map_of_mem hu⟩

theorem Depicts.labels (h : Depicts place m names faces) :
    ∃ faces', Labels names m faces' ∧
      List.Forall₂ (fun t u => u = t ∨ u = turned t) faces faces' := by
  obtain ⟨hsize, hfaces⟩ := h
  suffices hlabels : ∃ faces', List.Forall₂ (Reads names) m.faces.toList faces' ∧
      List.Forall₂ (fun t u => u = t ∨ u = turned t) faces faces' by
    obtain ⟨faces', hlabels, hall⟩ := hlabels
    exact ⟨faces', ⟨hsize, hlabels⟩, hall⟩
  generalize m.faces.toList = xs at hfaces ⊢
  induction hfaces with
  | nil => exact ⟨[], .nil, .nil⟩
  | cons hshows _ ih =>
      obtain ⟨u, hu, hreads⟩ := hshows
      obtain ⟨faces', hlabels, hall⟩ := ih
      exact ⟨u :: faces', .cons (hreads.imp fun _ _ => And.left) hlabels, .cons hu hall⟩

omit [Scalar α] in
theorem mem_face_iff {v : VertexId} :
    (∃ corners ∈ m.faces.toList, v ∈ corners) ↔ ∃ f, v ∈ m.corners f := by
  rw [← map_corners]
  simp only [List.mem_map, exists_exists_and_eq_and]
  refine exists_congr fun f => and_iff_right_of_imp fun hv => List.mem_range.mpr ?_
  by_contra hf
  rw [corners_of_le m f (Nat.not_lt.mp hf)] at hv
  cases hv

theorem mem_doubled_iff {v : VertexId} {side : Side} :
    (∃ t ∈ doubled m.faces.toList m.boundaryEdges, (v, side) ∈ t) ↔ ∃ f, v ∈ m.corners f := by
  constructor
  · rintro ⟨t, ht, hc⟩
    rcases List.mem_append.mp ht with hcopy | hstrip
    · obtain ⟨side', hcopy⟩ : ∃ side', t ∈ m.faces.toList.map (List.map (·, side')) :=
        (List.mem_append.mp hcopy).elim (⟨.front, ·⟩) (⟨.back, ·⟩)
      obtain ⟨corners, hcorners, rfl⟩ := List.mem_map.mp hcopy
      obtain ⟨w, hw, he⟩ := List.mem_map.mp hc
      obtain ⟨rfl, -⟩ := Prod.mk.inj he
      exact mem_face_iff.mp ⟨corners, hcorners, hw⟩
    · obtain ⟨e, he, ht⟩ := List.mem_flatMap.mp hstrip
      obtain ⟨f, hv, hw⟩ := corners_of_boundary he
      have hend : v = e.1 ∨ v = e.2 := by
        rcases List.mem_pair.mp ht with rfl | rfl <;>
          simp only [List.mem_cons, Prod.mk.injEq, List.not_mem_nil, or_false] at hc <;> tauto
      exact ⟨f, hend.elim (· ▸ hv) (· ▸ hw)⟩
  · intro hv
    obtain ⟨corners, hcorners, hv⟩ := mem_face_iff.mpr hv
    refine ⟨corners.map (·, side), List.mem_append_left _ ?_, List.mem_map_of_mem hv⟩
    cases side with
    | front => exact List.mem_append_left _ (List.mem_map_of_mem hcorners)
    | back => exact List.mem_append_right _ (List.mem_map_of_mem hcorners)

end Mesh

namespace Surface

open Mesh

variable [Scalar α] {surface : Surface α} {kept : List VertexId} {m shell : Mesh α}
  {front back : α}

theorem shellFaces_extrapolate (hm : surface.merged = (kept, m))
    (hmerged : Merged mergeTolerance kept m)
    (hshell : surface.extrapolate front back = .ok shell) :
    SameFaces (2 * m.faces.size) (wound m.faces.toList m.boundaryEdges) (m.shellFaces shell) := by
  obtain ⟨skirt, hskirt, hdepicts⟩ := yields_iff.mp (hmerged.edgeSurface_yields front back)
  obtain ⟨strips, hstrips, hall⟩ := hdepicts.labels
  have hlabels := labels_of_skirt hm hmerged hskirt hstrips hshell
  rw [shellFaces, hlabels.map_eq fun u c hu => by rw [shellCorner, hu, Option.getD_some], wound]
  constructor
  · have hcopies : 2 * m.faces.size = (m.faces.toList.map (List.map (·, Side.front)) ++
        m.faces.toList.map fun t => turned (t.map (·, Side.back))).length := by
      rw [List.length_append, List.length_map, List.length_map, Array.length_toList, Nat.two_mul]
    rw [hcopies, List.take_left, List.take_left]
  · exact List.rel_append (List.forall₂_same.mpr fun _ _ => .inl rfl) hall

theorem cornerAt_iff (hm : surface.merged = (kept, m)) (hmerged : Merged mergeTolerance kept m)
    (hshell : surface.extrapolate front back = .ok shell) {v : VertexId} {side : Side}
    {p : Vec3 α} :
    m.CornerAt shell (v, side) p ↔ (∃ f, v ∈ m.corners f) ∧
      ∃ n, m.vertexNormal v = .ok n ∧ p = m.position v + n * side.offset front back := by
  obtain ⟨_, hshell', hdepicts⟩ := yields_iff.mp (extrapolate_yields hm hmerged front back)
  obtain rfl := Except.ok.inj (hshell.symm.trans hshell')
  constructor
  · rintro ⟨corners, hcorners, u, hu, hname, rfl⟩
    obtain ⟨t, ht, c, hc, hnamed, -, n, hn, hposition⟩ := hdepicts.corner_mem hcorners hu
    rw [shellCorner, hnamed, Option.getD_some] at hname
    subst hname
    exact ⟨mem_doubled_iff.mp ⟨t, ht, hc⟩, n, hn, hposition⟩
  · rintro ⟨hv, n, hn, rfl⟩
    obtain ⟨t, ht, hc⟩ := mem_doubled_iff.mpr hv
    obtain ⟨corners, hcorners, u, hu, hnamed, -, k, hk, hposition⟩ :=
      hdepicts.exists_corner ht hc
    obtain rfl := Except.ok.inj (hn.symm.trans hk)
    exact ⟨corners, hcorners, u, hu, by rw [shellCorner, hnamed, Option.getD_some], hposition⟩

end Surface

namespace LeafPattern

open Mesh

/-- The meshes that the layers of a leaf are made of: shells over what the leaf traces at a pose,
which is `m` once corners have merged. -/
structure Layered [Scalar α] (pattern : LeafPattern α) (pose : Pose α) (m : Mesh α)
    (mesh : Layer → Mesh α) (shells : LeafShells α) : Prop where
  extruded : ∃ surface kept, pattern.surface pose = .ok surface ∧ surface.merged = (kept, m) ∧
    ∀ l : Layer, surface.extrapolate (l.frontOffset pattern.thickness)
      (l.backOffset pattern.thickness) = .ok (mesh l)
  front : shells.front = .ofMesh (mesh .front)
  sensitive : shells.sensitive = .ofMesh (mesh .sensitive)
  back : shells.back = .ofMesh (mesh .back)
  envelope : shells.envelope = .ofMesh (mesh .envelope)

section Layers

variable [Scalar α] {pattern : LeafPattern α} {pose : Pose α} {m : Mesh α} {mesh : Layer → Mesh α}
  {shells : LeafShells α}

theorem exists_layered (h : pattern.shells pose = .ok shells) :
    ∃ m mesh, pattern.Layered pose m mesh shells := by
  obtain ⟨surface, hsurface, h⟩ := bind_eq_ok.mp h
  obtain ⟨front, hfront, h⟩ := bind_eq_ok.mp h
  obtain ⟨sensitive, hsensitive, h⟩ := bind_eq_ok.mp h
  obtain ⟨back, hback, h⟩ := bind_eq_ok.mp h
  obtain ⟨envelope, henvelope, h⟩ := bind_eq_ok.mp h
  obtain ⟨area, -, h⟩ := bind_eq_ok.mp h
  obtain rfl := Except.ok.inj h
  have hmesh (l : Layer) : ∃ mesh, surface.extrapolate (l.frontOffset pattern.thickness)
      (l.backOffset pattern.thickness) = .ok mesh := by
    obtain ⟨mesh, hmesh, -⟩ :=
      yields_iff.mp (Surface.triangles_extrapolate (length_of_surface hsurface) _ _)
    exact ⟨mesh, hmesh⟩
  choose mesh hmesh using hmesh
  have hlayer {l : Layer} {solid : Tessellation α} (h : pattern.layer surface l = .ok solid) :
      solid = .ofMesh (mesh l) := by
    rw [layer, hmesh] at h
    exact (Except.ok.inj h).symm
  exact ⟨surface.merged.2, mesh, ⟨surface, surface.merged.1, hsurface, rfl, hmesh⟩, hlayer hfront,
    hlayer hsensitive, hlayer hback, hlayer henvelope⟩

namespace Layered

variable (h : pattern.Layered pose m mesh shells)

include h

theorem merged : ∃ (surface : Surface α) (kept : List VertexId), surface.merged = (kept, m) ∧
    Merged mergeTolerance kept m ∧ ∀ l : Layer, surface.extrapolate
      (l.frontOffset pattern.thickness) (l.backOffset pattern.thickness) = .ok (mesh l) := by
  obtain ⟨surface, kept, hsurface, hm, hmesh⟩ := h.extruded
  have hmerged := Surface.merged_triangles (length_of_surface hsurface)
  rw [hm] at hmerged
  exact ⟨surface, kept, hm, hmerged, hmesh⟩

theorem sameFaces (l : Layer) : SameFaces (2 * m.faces.size)
    (wound m.faces.toList m.boundaryEdges) (m.shellFaces (mesh l)) := by
  obtain ⟨surface, kept, hm, hmerged, hmesh⟩ := h.merged
  exact Surface.shellFaces_extrapolate hm hmerged (hmesh l)

theorem cornerAt_iff {l : Layer} {v : VertexId} {side : Side} {p : Vec3 α} :
    m.CornerAt (mesh l) (v, side) p ↔ (∃ f, v ∈ m.corners f) ∧ ∃ n, m.vertexNormal v = .ok n ∧
      p = m.position v + n * side.offset (l.frontOffset pattern.thickness)
        (l.backOffset pattern.thickness) := by
  obtain ⟨surface, kept, hm, hmerged, hmesh⟩ := h.merged
  exact Surface.cornerAt_iff hm hmerged (hmesh l)

theorem vertexNormal_ok {f : FaceId} {v : VertexId} (hv : v ∈ m.corners f) :
    ∃ n, m.vertexNormal v = .ok n := by
  obtain ⟨-, kept, -, hmerged, -⟩ := h.merged
  exact hmerged.vertexNormal_ok (hmerged.corners_kept f v hv)

/-- Sides of layers that are equally far off the surface have the same corners. -/
theorem cornerAt_congr {l k : Layer} {i j : Side}
    (hoffset : i.offset (l.frontOffset pattern.thickness) (l.backOffset pattern.thickness) =
      j.offset (k.frontOffset pattern.thickness) (k.backOffset pattern.thickness))
    (v : VertexId) (p : Vec3 α) :
    m.CornerAt (mesh l) (v, i) p ↔ m.CornerAt (mesh k) (v, j) p := by
  rw [h.cornerAt_iff, h.cornerAt_iff, hoffset]

end Layered

end Layers

theorem offset_between (l : Layer) (side : Side) : ∃ s : ℝ, 0 ≤ s ∧ s ≤ 1 ∧ ∀ thickness : ℝ,
    side.offset (l.frontOffset thickness) (l.backOffset thickness) =
      Layer.envelope.frontOffset thickness * (1 - s) +
        Layer.envelope.backOffset thickness * s := by
  refine ⟨0.5 - side.offset l.offsets.1 l.offsets.2, ?_⟩
  cases l <;> cases side <;>
    simp only [Side.offset, Layer.offsets, Layer.frontOffset, Layer.backOffset] <;>
    norm_num <;> intro <;> ring

variable {pattern : LeafPattern ℝ} {pose : Pose ℝ} {m : Mesh ℝ} {mesh : Layer → Mesh ℝ}
  {shells : LeafShells ℝ}

theorem Layered.between (h : pattern.Layered pose m mesh shells) {l : Layer} {v : VertexId}
    {side : Side} {p : Vec3 ℝ} (hp : m.CornerAt (mesh l) (v, side) p) :
    ∃ front back, m.CornerAt (mesh .envelope) (v, .front) front ∧
      m.CornerAt (mesh .envelope) (v, .back) back ∧
      ∃ s : ℝ, 0 ≤ s ∧ s ≤ 1 ∧ p = front * (1 - s) + back * s := by
  obtain ⟨hv, n, hn, rfl⟩ := h.cornerAt_iff.mp hp
  obtain ⟨s, hs, hs', hoffset⟩ := offset_between l side
  refine ⟨_, _, h.cornerAt_iff.mpr ⟨hv, n, hn, rfl⟩, h.cornerAt_iff.mpr ⟨hv, n, hn, rfl⟩, s, hs,
    hs', ?_⟩
  rw [hoffset]
  ext <;> simp [Side.offset] <;> ring

/-- The layers of every leaf. They have the faces of the envelope. The front ends where the
sensitive layer begins, which ends where the back begins. Without rounding every corner is on the
segment between the two corners of the envelope over the same vertex, and in the box around the
envelope. -/
theorem layers_fit :
    (∀ {α : Type} [Scalar α] (pattern : LeafPattern α) (pose : Pose α) (shells : LeafShells α),
      pattern.shells pose = .ok shells →
      ∃ m mesh, pattern.Layered pose m mesh shells ∧
        SameFaces (2 * m.faces.size) (wound m.faces.toList m.boundaryEdges)
          (m.shellFaces (mesh .envelope)) ∧
        (∀ l, SameFaces (2 * m.faces.size) (m.shellFaces (mesh .envelope))
          (m.shellFaces (mesh l))) ∧
        (∀ f, ∀ v ∈ m.corners f, ∀ l side, ∃ p, ∀ q,
          m.CornerAt (mesh l) (v, side) q ↔ q = p) ∧
        (∀ v p, m.CornerAt (mesh .front) (v, .back) p ↔
          m.CornerAt (mesh .sensitive) (v, .front) p) ∧
        ∀ v p, m.CornerAt (mesh .sensitive) (v, .back) p ↔
          m.CornerAt (mesh .back) (v, .front) p) ∧
    ∀ (pattern : LeafPattern ℝ) (pose : Pose ℝ) (shells : LeafShells ℝ) m mesh,
      pattern.Layered pose m mesh shells →
      ∀ l v side p, m.CornerAt (mesh l) (v, side) p →
        (∃ front back, m.CornerAt (mesh .envelope) (v, .front) front ∧
          m.CornerAt (mesh .envelope) (v, .back) back ∧
          ∃ s : ℝ, 0 ≤ s ∧ s ≤ 1 ∧ p = front * (1 - s) + back * s) ∧
        ∃ box, Box.ofPoints? (mesh .envelope).cornerPoints = some box ∧
          box.contains p 0 = true := by
  refine ⟨fun pattern pose shells hshells => ?_,
    fun pattern pose shells m mesh h l v side p hp => ?_⟩
  · obtain ⟨m, mesh, h⟩ := exists_layered hshells
    refine ⟨m, mesh, h, h.sameFaces .envelope, fun l => ?_, fun f v hv l side => ?_, ?_, ?_⟩
    · exact (h.sameFaces .envelope).symm.trans (h.sameFaces l)
    · obtain ⟨n, hn⟩ := h.vertexNormal_ok hv
      refine ⟨_, fun q => h.cornerAt_iff.trans ⟨?_, fun hq => ⟨⟨f, hv⟩, n, hn, hq⟩⟩⟩
      rintro ⟨-, k, hk, hq⟩
      obtain rfl := Except.ok.inj (hn.symm.trans hk)
      exact hq
    · exact h.cornerAt_congr rfl
    · exact h.cornerAt_congr rfl
  · obtain ⟨front, back, hfront, hback, s, hs, hs', rfl⟩ := h.between hp
    obtain ⟨box, hbox, hcontains⟩ := Box.contains_of_mem hfront.mem_cornerPoints
    refine ⟨⟨front, back, hfront, hback, s, hs, hs', rfl⟩, box, hbox, ?_⟩
    exact Box.contains_between (hcontains _ hfront.mem_cornerPoints)
      (hcontains _ hback.mem_cornerPoints) hs hs'

noncomputable def sail : LeafPattern ℝ where
  species := .planar
  program := [.openPolygon, .vertex, .move 1, .vertex, .descend 1, .vertex]
  thickness := 1

noncomputable def alongFloor : Pose ℝ := .ofFrame 0 ⟨1, 0, 0⟩ ⟨0, 1, 0⟩

theorem interpret_sail {q h l : Vec3 ℝ} (hunit : h.length = 1) :
    ∃ out, interpret sail.program (startPose (.ofFrame q h l)) = .ok out ∧
      out.polygons = [[q, q + h, q + h + ⟨0, 0, -1⟩]] := by
  let base := startPose (.ofFrame q h l)
  have hpolygons : ∃ out, interpret sail.program base = .ok out ∧
      out.polygons = [[base.position, (base.glide 1).position,
        ((base.glide 1).moveAlong ⟨0, 0, -1⟩).position]] := ⟨_, rfl, rfl⟩
  obtain ⟨out, hout, hpolygons⟩ := hpolygons
  refine ⟨out, hout, hpolygons.trans ?_⟩
  simp [base, startPose, Pose.ofFrame, Pose.glide, Pose.moveForward, Pose.endPoint,
    Pose.moveAlong, Vec3.withLength, Vec3.ext_iff, hunit]

theorem surface_sail_of_tilted {q h l : Vec3 ℝ} (hunit : h.dot h = 1)
    (htilted : filterTolerance ≤ (h + ⟨0, 0, -1⟩).length) :
    sail.surface (.ofFrame q h l) = .ok [[q, q + h, q + h + ⟨0, 0, -1⟩]] := by
  have hlength : h.length = 1 := Vec3.length_eq_one.mpr hunit
  obtain ⟨out, hout, hpolygons⟩ := interpret_sail (q := q) (l := l) hlength
  have hfilter : (filterTolerance : ℝ) ≤ 1 := by norm_num [filterTolerance]
  have hab : (q - (q + h)).length = h.length := by
    rw [Vec3.length, Vec3.length, Surface.lengthSq_sub, Vec3.lengthSq, Vec3.dot_eq]
    simp
  have hbc : (q + h - (q + h + ⟨0, 0, -1⟩)).length = 1 := by
    refine Vec3.length_eq zero_le_one ?_
    simp [Surface.lengthSq_sub]
  have hca : q + h + ⟨0, 0, -1⟩ - q = h + ⟨0, 0, -1⟩ := by
    ext <;> simp [add_sub_right_comm]
  have husable : isUsable [q, q + h, q + h + ⟨0, 0, -1⟩] = true := by
    simp only [isUsable, Triangle.hasCoincidentCorners, Bool.not_eq_true', Bool.or_eq_false_iff,
      decide_eq_false_iff_not, not_lt, hab, hbc, hca, hlength]
    exact ⟨⟨hfilter, hfilter⟩, htilted⟩
  rw [LeafPattern.surface, hout]
  change Except.ok (out.polygons.filter isUsable) = _
  rw [hpolygons, List.filter_cons_of_pos husable, List.filter_nil]

theorem surface_sail :
    sail.surface alongFloor = .ok [[⟨0, 0, 0⟩, ⟨1, 0, 0⟩, ⟨1, 0, -1⟩]] := by
  have hfilter : (filterTolerance : ℝ) ≤ 1 := by norm_num [filterTolerance]
  have htilted : filterTolerance ≤ ((⟨1, 0, 0⟩ : Vec3 ℝ) + ⟨0, 0, -1⟩).length := by
    refine hfilter.trans (Real.one_le_sqrt.mpr ?_)
    norm_num [Vec3.lengthSq, Vec3.dot_eq]
  rw [alongFloor, surface_sail_of_tilted (by simp [Vec3.dot_eq]) htilted]
  simp [Vec3.ext_iff]

theorem layers_fit_sail :
    ∃ (shells : LeafShells ℝ) (m : Mesh ℝ) (mesh : Layer → Mesh ℝ),
      sail.shells alongFloor = .ok shells ∧ m.faces.size = 1 ∧ ∃ v p,
        m.CornerAt (mesh .front) (v, .back) p ∧ m.CornerAt (mesh .sensitive) (v, .front) p ∧
        ∃ front back, m.CornerAt (mesh .envelope) (v, .front) front ∧
          m.CornerAt (mesh .envelope) (v, .back) back ∧
          ∃ s : ℝ, 0 ≤ s ∧ s ≤ 1 ∧ p = front * (1 - s) + back * s := by
  obtain ⟨hfit, hbetween⟩ := layers_fit
  obtain ⟨shells, hshells, -⟩ := yields_iff.mp (shells_of_surface surface_sail)
  obtain ⟨m, mesh, h, -, -, hcorner, hfront, -⟩ := hfit _ _ shells hshells
  obtain ⟨surface, kept, hsurface, hm, -⟩ := h.extruded
  obtain rfl := Except.ok.inj (surface_sail.symm.trans hsurface)
  have hmerged := Surface.merged_triangles (length_of_surface hsurface)
  have hone := Surface.size_merged [[⟨0, 0, 0⟩, ⟨1, 0, 0⟩, (⟨1, 0, -1⟩ : Vec3 ℝ)]]
  rw [hm] at hmerged hone
  obtain ⟨v, _, _, hv⟩ := List.length_eq_three.mp
    (hmerged.contracted.triangular 0 (hone ▸ Nat.one_pos))
  have hmem : v ∈ m.corners 0 := hv ▸ List.mem_cons_self
  obtain ⟨p, hp⟩ := hcorner 0 v hmem .front .back
  have hat := (hp p).mpr rfl
  exact ⟨shells, m, mesh, hshells, hone, v, p, hat, (hfront v p).mp hat,
    (hbetween _ _ _ _ _ h _ _ _ _ hat).1⟩

end LeafPattern

end Arbor
