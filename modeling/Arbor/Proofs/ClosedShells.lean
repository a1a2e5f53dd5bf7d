import Arbor.Proofs.MergedSurfaces
import Arbor.Proofs.NamedCorners
import Arbor.Proofs.NonfiniteDoubles
import Arbor.Scalar.Real
import Mathlib.Tactic.NormNum

namespace Arbor

variable {α : Type} [Scalar α]

def Side.offset (front back : α) : Side → α
  | .front => front
  | .back => back

namespace Mesh

variable {kept : List VertexId} {m m' : Mesh α} {front back : α} {v w f : Nat}

def OffsetTo (m : Mesh α) (kept : List VertexId) (front back : α) (c : VertexId × Side)
    (p : Vec3 α) : Prop :=
  c.1 ∈ kept ∧ ∃ n, m.vertexNormal c.1 = .ok n ∧ p = m.position c.1 + n * c.2.offset front back

/-- The corners that the vertices of the shell over `m` stand for: those of the front copy, of the
back copy and of the skirt. -/
def shellCorners (m : Mesh α) : List (VertexId × Side) :=
  (List.range m.vertices.size).map (·, .front) ++ (List.range m.vertices.size).map (·, .back) ++
    (m.boundaryEdges.flatMap stripTriangles).flatten

def shellCorner (m : Mesh α) (u : VertexId) : VertexId × Side :=
  m.shellCorners[u]?.getD (0, .front)

theorem faceNormal_ok (hf : (m.corners f).length = 3) : ∃ n, m.faceNormal f = .ok n := by
  obtain ⟨a, b, c, he⟩ := List.length_eq_three.mp hf
  cases hget : m.faces[f]? with
  | none => simp [corners, hget] at he
  | some corners =>
      rw [corners_eq hget] at he
      exact ⟨_, by rw [faceNormal, triangle, hget, he]; rfl⟩

namespace Merged

variable {tolerance : α} (h : Merged tolerance kept m)

include h

theorem normal_of_corner (hv : v ∈ m.corners f) : ∃ n, m.faceNormal f = .ok n := by
  apply faceNormal_ok
  rcases Nat.lt_or_ge f m.faces.size with hf | hf
  · exact h.contracted.triangular f hf
  · rw [corners_of_le m f hf] at hv
    cases hv

theorem requireVertex_yields (hv : v ∈ kept) : Yields (fun _ => True) (m.requireVertex v) := by
  rw [requireVertex_eq_ok.mpr (h.kept_existing v hv)]
  trivial

theorem vertexNormal_ok (hv : v ∈ kept) : ∃ n, m.vertexNormal v = .ok n := by
  have hsum : Yields (fun _ => True) ((m.containing v).foldlM
      (fun sum f => do return sum + (← m.faceNormal f)) (0 : Vec3 α)) := by
    refine yields_foldlM trivial fun f hf sum _ => ?_
    obtain ⟨n, hn⟩ := h.normal_of_corner ((h.indexed.listed v f).mp hf)
    rw [hn]
    trivial
  have hyields : Yields (fun _ => True) (m.vertexNormal v) :=
    (h.requireVertex_yields hv).bind fun _ _ => hsum.bind fun _ _ => trivial
  obtain ⟨n, hn, -⟩ := yields_iff.mp hyields
  exact ⟨n, hn⟩

theorem edgeNormal_yields (hv : v ∈ kept) (hw : w ∈ kept) :
    Yields (fun _ => True) (m.edgeNormal v w) := by
  refine (h.requireVertex_yields hv).bind fun _ _ => ?_
  change Yields _ (ite _ _ _)
  split
  · trivial
  · refine (h.requireVertex_yields hw).bind fun _ _ => ?_
    split
    · trivial
    next f hfind =>
      have hf := (h.indexed.listed v f).mp (List.mem_of_find?_eq_some hfind)
      obtain ⟨n, hn⟩ := h.normal_of_corner hf
      rw [hn]
      trivial

end Merged

theorem position_foldl_moveVertex {Q : VertexId → Vec3 α → Prop}
    {moves : List (VertexId × Vec3 α)}
    (hmoves : ∀ v p, (v, p) ∈ moves → v < m.vertices.size ∧ Q v p) (v : VertexId) :
    v ∈ moves.map Prod.fst ∧ Q v ((moves.foldl (fun m (v, p) => m.moveVertex v p) m).position v) ∨
      v ∉ moves.map Prod.fst ∧
        (moves.foldl (fun m (v, p) => m.moveVertex v p) m).position v = m.position v := by
  induction moves generalizing m with
  | nil => exact .inr ⟨List.not_mem_nil, rfl⟩
  | cons move moves ih =>
      obtain ⟨w, q⟩ := move
      obtain ⟨hw, hq⟩ := hmoves w q List.mem_cons_self
      rw [List.map_cons, List.foldl_cons]
      rcases ih (m := m.moveVertex w q) fun v p hp => by
        rw [size_moveVertex]
        exact hmoves v p (List.mem_cons_of_mem _ hp) with ⟨hv, hQ⟩ | ⟨hv, he⟩
      · exact .inl ⟨List.mem_cons_of_mem _ hv, hQ⟩
      · -- this was the last move of `w`, and the place of any other vertex is as it was
        rw [he, position_moveVertex _ _ _ _ hw]
        by_cases hvw : v = w
        · subst hvw
          exact .inl ⟨List.mem_cons_self, by rwa [if_pos rfl]⟩
        · refine .inr ⟨?_, if_neg hvw⟩
          simp [hvw, hv]

theorem moved_of_forall₂ {Q : VertexId → Vec3 α → Prop} {moves : List (VertexId × Vec3 α)}
    (hmoves : List.Forall₂ (fun v move => move.1 = v ∧ Q v move.2) kept moves)
    (hkept : ∀ v ∈ kept, v < m.vertices.size) (hv : v ∈ kept) :
    Q v ((moves.foldl (fun m (v, p) => m.moveVertex v p) m).position v) := by
  have hfst : moves.map Prod.fst = kept := by
    rw [eq_comm, ← List.forall₂_eq_eq_eq, List.forall₂_map_right_iff]
    exact hmoves.imp fun v move hmove => hmove.1.symm
  have hmove (w : VertexId) (p : Vec3 α) (hp : (w, p) ∈ moves) : w < m.vertices.size ∧ Q w p := by
    refine ⟨hkept w (hfst ▸ List.mem_map_of_mem hp), ?_⟩
    obtain ⟨i, hi, he⟩ := List.getElem_of_mem hp
    have hmove := hmoves.get (hmoves.length_eq ▸ hi) hi
    rw [List.get_eq_getElem, List.get_eq_getElem, he] at hmove
    obtain ⟨hw, hQ⟩ := hmove
    rw [show w = _ from hw]
    exact hQ
  rcases position_foldl_moveVertex hmove v with ⟨-, hQ⟩ | ⟨hnot, -⟩
  · exact hQ
  · exact (hnot (hfst ▸ hv)).elim

structure Copies (kept : List VertexId) (m : Mesh α) (distance : α) (copy : Mesh α) : Prop where
  indexed : copy.Indexed
  size : copy.vertices.size = m.vertices.size
  faces : copy.faces = m.faces
  position : ∀ v ∈ kept, ∃ n, m.vertexNormal v = .ok n ∧
    copy.position v = m.position v + n * distance

theorem Merged.copies_yields {tolerance : α} (h : Merged tolerance kept m) (distance : α) :
    Yields (Copies kept m distance) (m.offsetAlongNormals kept distance) := by
  have hmoves : Yields (List.Forall₂ (fun v (move : VertexId × Vec3 α) => move.1 = v ∧
      ∃ n, m.vertexNormal v = .ok n ∧ move.2 = m.position v + n * distance) kept)
      (kept.mapM fun v => do
        let normal ← m.vertexNormal v
        return (v, m.position v + normal * distance)) := by
    refine yields_mapM fun v hv => ?_
    obtain ⟨n, hn⟩ := h.vertexNormal_ok hv
    rw [hn]
    exact ⟨rfl, n, rfl, rfl⟩
  refine hmoves.bind fun moves hmoves => ⟨h.indexed.foldl_moveVertex moves,
    size_foldl_moveVertex m moves, faces_foldl_moveVertex m moves, fun v hv => ?_⟩
  exact moved_of_forall₂ (Q := fun v p => ∃ n, m.vertexNormal v = .ok n ∧
    p = m.position v + n * distance) hmoves h.kept_existing hv

theorem Merged.offset_yields {tolerance : α} (h : Merged tolerance kept m) (front back : α)
    (side : Side) :
    Yields (fun m' => Depicts (m.OffsetTo kept front back) m'
        ((List.range m.vertices.size).map (·, side)) (m.faces.toList.map (List.map (·, side))))
      (m.offsetAlongNormals kept (side.offset front back)) := by
  refine (h.copies_yields (side.offset front back)).mono (fun copy hcopy => ?_) fun _ => id
  refine ⟨by simp [hcopy.size], ?_⟩
  rw [hcopy.faces]
  refine List.forall₂_map_right_iff.mpr (List.forall₂_same.mpr fun corners hcorners => ?_)
  refine ⟨_, .inl rfl, List.forall₂_map_right_iff.mpr (List.forall₂_same.mpr fun v hv => ?_)⟩
  have hkept := h.kept_of_mem hcorners hv
  exact ⟨by simp [h.kept_existing v hkept], hkept, hcopy.position v hkept⟩

theorem addFacing_yields {β : Type} {place : β → Vec3 α → Prop} {names t : List β}
    {faces : List (List β)} (h : Depicts place m names faces) (hfaces : ∀ t ∈ faces, t.length = 3)
    (hlength : t.length = 3) {points : List (Vec3 α)} (ht : List.Forall₂ place t points)
    (outward : Vec3 α) :
    Yields (fun m' => Depicts place m' (names ++ t) (faces ++ [t]))
      (addFacing outward m points) := by
  have hnew := h.addPolygon ht
  have hall : ∀ u ∈ faces ++ [t], u.length = 3 := by
    intro u hu
    rcases List.mem_append.mp hu with hu | hu
    · exact hfaces u hu
    · exact List.mem_singleton.mp hu ▸ hlength
  have hlast : (m.addPolygon points).1 < (m.addPolygon points).2.faces.size := by
    rw [addPolygon_eq, faces_pushFace, Array.size_push]
    exact Nat.lt_succ_self _
  obtain ⟨n, hn⟩ := faceNormal_ok (hnew.corners_length hall hlast)
  obtain ⟨m', hm', -, hdepicts⟩ := hnew.invert hall hlast
  unfold addFacing
  dsimp only
  rw [hn]
  change Yields _ (ite _ _ _)
  split
  · rw [hm']
    exact hdepicts
  · exact hnew

theorem length_stripTriangles {β : Type} (e : β × β) : ∀ t ∈ stripTriangles e, t.length = 3 := by
  intro t ht
  rcases List.mem_pair.mp ht with rfl | rfl <;> rfl

namespace Merged

variable {tolerance : α} {skirt : Mesh α} {names : List (VertexId × Side)}
  {faces : List (List (VertexId × Side))}

theorem addSkirt_yields (h : Merged tolerance kept m)
    (hskirt : Depicts (m.OffsetTo kept front back) skirt names faces)
    (hfaces : ∀ t ∈ faces, t.length = 3) {e : VertexId × VertexId} (hv : e.1 ∈ kept)
    (hw : e.2 ∈ kept) :
    Yields (fun m' => Depicts (m.OffsetTo kept front back) m' (names ++ (stripTriangles e).flatten)
      (faces ++ stripTriangles e)) (addSkirt m front back skirt e) := by
  obtain ⟨v, w⟩ := e
  obtain ⟨n, hn⟩ := h.vertexNormal_ok hv
  obtain ⟨k, hk⟩ := h.vertexNormal_ok hw
  have hend {u : VertexId} {n : Vec3 α} (hu : u ∈ kept) (hn : m.vertexNormal u = .ok n)
      (side : Side) : m.OffsetTo kept front back (u, side)
        (m.position u + n * side.offset front back) := ⟨hu, n, hn, rfl⟩
  have hfirst : List.Forall₂ (m.OffsetTo kept front back) [(v, .front), (v, .back), (w, .front)]
      [m.position v + n * front, m.position v + n * back, m.position w + k * front] :=
    .cons (hend hv hn .front) (.cons (hend hv hn .back) (.cons (hend hw hk .front) .nil))
  have hsecond : List.Forall₂ (m.OffsetTo kept front back) [(w, .front), (v, .back), (w, .back)]
      [m.position w + k * front, m.position v + n * back, m.position w + k * back] :=
    .cons (hend hw hk .front) (.cons (hend hv hn .back) (.cons (hend hw hk .back) .nil))
  unfold addSkirt
  refine (h.edgeNormal_yields hv hw).bind fun outward _ => ?_
  rw [hn, hk]
  refine (addFacing_yields hskirt hfaces rfl hfirst outward).bind fun skirt hskirt => ?_
  have hfaces' : ∀ t ∈ faces ++ [[(v, .front), (v, .back), (w, .front)]], t.length = 3 := by
    intro t ht
    rcases List.mem_append.mp ht with ht | ht
    · exact hfaces t ht
    · exact List.mem_singleton.mp ht ▸ rfl
  refine (addFacing_yields hskirt hfaces' rfl hsecond outward).bind fun skirt hskirt => ?_
  exact Meets.pure (by simpa [stripTriangles] using hskirt)

theorem foldlM_addSkirt_yields (h : Merged tolerance kept m) {edges : List (VertexId × VertexId)}
    (hedges : ∀ e ∈ edges, e.1 ∈ kept ∧ e.2 ∈ kept)
    (hskirt : Depicts (m.OffsetTo kept front back) skirt names faces)
    (hfaces : ∀ t ∈ faces, t.length = 3) :
    Yields (fun m' => Depicts (m.OffsetTo kept front back) m'
      (names ++ (edges.flatMap stripTriangles).flatten) (faces ++ edges.flatMap stripTriangles))
      (edges.foldlM (addSkirt m front back) skirt) := by
  induction edges generalizing skirt names faces with
  | nil => exact Meets.pure (by simpa using hskirt)
  | cons e edges ih =>
      obtain ⟨hv, hw⟩ := hedges e List.mem_cons_self
      rw [List.foldlM_cons, List.flatMap_cons, List.flatten_append, ← List.append_assoc,
        ← List.append_assoc]
      refine (h.addSkirt_yields hskirt hfaces hv hw).bind fun skirt hskirt => ?_
      refine ih (fun d hd => hedges d (List.mem_cons_of_mem _ hd)) hskirt fun t ht => ?_
      rcases List.mem_append.mp ht with ht | ht
      · exact hfaces t ht
      · exact length_stripTriangles e t ht

end Merged

theorem invertAll_yields {β : Type} {place : β → Vec3 α → Prop} {names : List β}
    {faces : List (List β)} (h : Depicts place m names faces)
    (hfaces : ∀ t ∈ faces, t.length = 3) :
    Yields (fun m' => Depicts place m' names faces) m.invertAll := by
  have hfold : Yields (fun m' : Mesh α => m'.faces.size = m.faces.size ∧
      Depicts place m' names faces) m.invertAll := by
    refine yields_foldlM ⟨rfl, h⟩ fun f hf m₁ hm₁ => ?_
    have hlt : f < m₁.faces.size := hm₁.1 ▸ List.mem_range.mp hf
    obtain ⟨m₂, he, hsize, hdepicts⟩ := hm₁.2.invert hfaces hlt
    rw [he]
    exact ⟨hsize.trans hm₁.1, hdepicts⟩
  exact hfold.mono (fun _ h => h.2) fun _ => id

omit [Scalar α] in
theorem map_corners (m : Mesh α) : m.faceIds.map m.corners = m.faces.toList := by
  refine List.ext_getElem (by simp [faceIds]) fun i hi hi' => ?_
  have hlt : i < m.faces.size := by simpa using hi'
  simp [faceIds, corners, hlt]

theorem map_edges (hsound : ∀ f ∈ m.faceIds, m.isDegenerate f degenerateTolerance = false) :
    m.edges.map (fun e => s(e.1, e.2)) = m.faces.toList.flatMap sides := by
  have hall : m.faceIds.filter (fun f => !m.isDegenerate f degenerateTolerance) = m.faceIds :=
    List.filter_eq_self.mpr fun f hf => by simp [hsound f hf]
  rw [edges, hall, List.map_flatMap, ← map_corners, List.flatMap_map]
  refine List.flatMap_congr fun f _ => ?_
  generalize m.corners f = corners
  match corners with
  | [] | [_] | [_, _] | [_, _, _] | _ :: _ :: _ :: _ :: _ => rfl

theorem sameEdge_iff (e d : VertexId × VertexId) :
    sameEdge e d = true ↔ s(d.1, d.2) = s(e.1, e.2) := by
  simp [sameEdge, Prod.ext_iff]

theorem map_boundaryEdges (hsound : ∀ f ∈ m.faceIds, m.isDegenerate f degenerateTolerance = false) :
    m.boundaryEdges.map (fun e => s(e.1, e.2)) = single (m.faces.toList.flatMap sides) := by
  rw [← map_edges hsound, single, List.filter_map, boundaryEdges]
  refine congrArg (List.map _) (List.filter_congr fun e _ => ?_)
  have hcount : m.edges.countP (sameEdge e) =
      (m.edges.map fun e => s(e.1, e.2)).count s(e.1, e.2) := by
    rw [List.count, List.countP_map]
    refine List.countP_congr fun d _ => ?_
    simp [sameEdge_iff]
  rw [hcount]
  rfl

theorem corners_of_boundary {e : VertexId × VertexId} (he : e ∈ m.boundaryEdges) :
    ∃ f, e.1 ∈ m.corners f ∧ e.2 ∈ m.corners f := by
  obtain ⟨f, -, he⟩ := List.mem_flatMap.mp (List.mem_filter.mp he).1
  split at he
  next a b c hcorners =>
    refine ⟨f, ?_⟩
    rw [hcorners]
    simp only [List.mem_cons, List.not_mem_nil, or_false] at he
    rcases he with rfl | rfl | rfl <;> simp
  next => cases he

theorem Merged.boundary_kept {tolerance : α} (h : Merged tolerance kept m)
    {e : VertexId × VertexId} (he : e ∈ m.boundaryEdges) : e.1 ∈ kept ∧ e.2 ∈ kept := by
  obtain ⟨f, hv, hw⟩ := corners_of_boundary he
  exact ⟨h.corners_kept f _ hv, h.corners_kept f _ hw⟩

end Mesh

namespace Surface

open Mesh

variable {surface : Surface α}

theorem extrapolate_yields {kept : List VertexId} {m : Mesh α} (hm : surface.merged = (kept, m))
    (h : Merged mergeTolerance kept m) (front back : α) :
    Yields (fun shell => Depicts (m.OffsetTo kept front back) shell m.shellCorners
        (doubled m.faces.toList m.boundaryEdges)) (extrapolate surface front back) := by
  unfold extrapolate
  rw [hm]
  refine (h.offset_yields front back .front).bind fun frontCopy hfront => ?_
  refine (h.offset_yields front back .back).bind fun backCopy hback => ?_
  have htriangles : ∀ t ∈ m.faces.toList.map (List.map (·, Side.back)), t.length = 3 := by
    intro t ht
    obtain ⟨corners, hcorners, rfl⟩ := List.mem_map.mp ht
    rw [List.length_map, h.length_of_mem hcorners]
  refine (invertAll_yields hback htriangles).bind fun backCopy hback => ?_
  refine (h.foldlM_addSkirt_yields (fun e => h.boundary_kept) .empty
    (List.forall_mem_nil _)).bind fun skirt hskirt => ?_
  exact (hfront.append hback).append hskirt

/-- A shell has two faces for each face and for each boundary edge of the merged surface. Its
corners are offsets of kept vertices, the same ones in the copies and in the skirt, and every edge
between such corners belongs to an even number of faces. That points with a close neighbour are
close to themselves is so for real numbers and, by `Vec3.length_sub_self_lt`, for doubles. -/
theorem shell_closed {kept : List VertexId} {m : Mesh α}
    (hself : ∀ p q : Vec3 α, (p - q).length < mergeTolerance →
      (p - p).length < degenerateTolerance)
    (htriangles : ∀ p ∈ surface, p.length = 3) (hm : surface.merged = (kept, m))
    (hsound : ∀ f < m.faces.size, m.isDegenerate f degenerateTolerance = false)
    (hedges : ∀ e : Sym2 VertexId, edgeFaces m.faces.toList e ≤ 2) (front back : α) :
    ∃ shell : Mesh α, surface.extrapolate front back = .ok shell ∧
      shell.faces.size = 2 * m.faces.size + 2 * m.boundaryEdges.length ∧
      (∀ corners ∈ shell.faces.toList, ∀ u ∈ corners, ∃ v side n,
        m.shellCorners[u]? = some (v, side) ∧ v ∈ kept ∧ m.vertexNormal v = .ok n ∧
          shell.position u = m.position v + n * side.offset front back) ∧
      ∀ e : Sym2 (VertexId × Side),
        Even (edgeFaces (shell.faces.toList.map (List.map m.shellCorner)) e) := by
  have hmerged := merged_triangles htriangles
  rw [hm] at hmerged
  have hnodup : ∀ corners ∈ m.faces.toList, corners.Nodup := by
    intro corners hcorners
    obtain ⟨f, hf⟩ := List.mem_iff_getElem?.mp hcorners
    rw [Array.getElem?_toList] at hf
    have hlt := (Array.getElem?_eq_some_iff.mp hf).1
    exact corners_eq hf ▸ hmerged.nodup hself hlt (hsound f hlt)
  -- from here on the geometry is out of the picture: faces are lists of names
  have hboundary := map_boundaryEdges fun f hf => hsound f (List.mem_range.mp hf)
  obtain ⟨shell, hshell, hdepicts⟩ := yields_iff.mp (extrapolate_yields hm hmerged front back)
  refine ⟨shell, hshell, ?_, ?_, ?_⟩
  · rw [hdepicts.length, length_doubled, Array.length_toList]
  · intro corners hcorners u hu
    obtain ⟨⟨v, side⟩, hname, hkept, n, hn, hposition⟩ := hdepicts.corner hcorners hu
    exact ⟨v, side, n, hname, hkept, hn, hposition⟩
  · intro e
    rw [hdepicts.edgeFaces_eq fun u c hu => by rw [shellCorner, hu, Option.getD_some]]
    exact even_doubled hnodup hedges hboundary e

noncomputable def unitTriangle : Surface ℝ := [[⟨0, 0, 0⟩, ⟨1, 0, 0⟩, ⟨0, 1, 0⟩]]

theorem lengthSq_sub (p q : Vec3 ℝ) : (p - q).lengthSq =
    (p.x - q.x) * (p.x - q.x) + (p.y - q.y) * (p.y - q.y) + (p.z - q.z) * (p.z - q.z) := rfl

theorem not_close {p q : Vec3 ℝ} {tolerance : ℝ} (ht : tolerance ≤ 1)
    (h : 1 ≤ (p - q).lengthSq) : ¬ (p - q).length < tolerance :=
  not_lt.mpr (ht.trans (Real.one_le_sqrt.mpr h))

theorem unitTriangle_far {tolerance : ℝ} (ht : tolerance ≤ 1) :
    let p := (ofPolygons unitTriangle).position
    ¬ (p 0 - p 1).length < tolerance ∧ ¬ (p 0 - p 2).length < tolerance ∧
      ¬ (p 1 - p 2).length < tolerance ∧ ¬ (p 2 - p 0).length < tolerance := by
  have h0 : (ofPolygons unitTriangle).position 0 = ⟨0, 0, 0⟩ := rfl
  have h1 : (ofPolygons unitTriangle).position 1 = ⟨1, 0, 0⟩ := rfl
  have h2 : (ofPolygons unitTriangle).position 2 = ⟨0, 1, 0⟩ := rfl
  refine ⟨not_close ht ?_, not_close ht ?_, not_close ht ?_, not_close ht ?_⟩ <;>
    norm_num [lengthSq_sub, h0, h1, h2]

theorem merged_unitTriangle : unitTriangle.merged = ([0, 1, 2], ofPolygons unitTriangle) := by
  have ht : (mergeTolerance : ℝ) ≤ 1 := by norm_num [mergeTolerance]
  obtain ⟨h01, h02, h12, -⟩ := unitTriangle_far ht
  generalize hm : ofPolygons unitTriangle = m at *
  have hc : m.corners 0 = [0, 1, 2] := hm ▸ rfl
  have hf : m.faceIds = [0] := hm ▸ rfl
  have hr : List.range 3 = [0, 1, 2] := rfl
  rw [merged, hm]
  simp [mergeVertices, hf, mergeFace, hc, hr, mergeCorner, keptAt?, h01, h02, h12]

theorem sound_unitTriangle :
    (ofPolygons unitTriangle).isDegenerate 0 degenerateTolerance = false := by
  have ht : (degenerateTolerance : ℝ) ≤ 1 := by norm_num [degenerateTolerance]
  obtain ⟨h01, -, h12, h20⟩ := unitTriangle_far ht
  have hc : (ofPolygons unitTriangle).corners 0 = [0, 1, 2] := rfl
  simp [isDegenerate, hc, triangleOf?, Triangle.hasCoincidentCorners, h01, h12, h20]

theorem boundary_unitTriangle :
    (ofPolygons unitTriangle).boundaryEdges = [(0, 1), (1, 2), (2, 0)] := by
  have hf : (ofPolygons unitTriangle).faceIds = [0] := rfl
  have hc : (ofPolygons unitTriangle).corners 0 = [0, 1, 2] := rfl
  have he : (ofPolygons unitTriangle).edges = [(0, 1), (1, 2), (2, 0)] := by
    simp [edges, hf, sound_unitTriangle, hc]
  rw [boundaryEdges, he]
  decide

def doubleTriangle : Surface Float := [[⟨0, 0, 0⟩, ⟨1, 0, 0⟩, ⟨0, 1, 0⟩]]

theorem merged_doubleTriangle : doubleTriangle.merged.2.faces = #[[0, 1, 2]] ∧
    doubleTriangle.merged.2.isDegenerate 0 degenerateTolerance = false ∧
    doubleTriangle.merged.2.boundaryEdges.length = 3 := by
  decide +kernel

theorem shell_closed_unitTriangle :
    (∃ shell : Mesh ℝ, unitTriangle.extrapolate 1 (-1) = .ok shell ∧ shell.faces.size = 8 ∧
      ∀ e, Even (edgeFaces
        (shell.faces.toList.map (List.map (ofPolygons unitTriangle).shellCorner)) e)) ∧
    ∃ shell : Mesh Float, doubleTriangle.extrapolate 1 (-1) = .ok shell ∧ shell.faces.size = 8 ∧
      ∀ e, Even (edgeFaces
        (shell.faces.toList.map (List.map doubleTriangle.merged.2.shellCorner)) e) := by
  constructor
  · have hself (p q : Vec3 ℝ) (_ : (p - q).length < mergeTolerance) :
        (p - p).length < degenerateTolerance := by
      norm_num [Vec3.length, lengthSq_sub, degenerateTolerance, Scalar.sqrt]
    have htriangles : ∀ p ∈ unitTriangle, p.length = 3 := by simp [unitTriangle]
    have hsound : ∀ f < (ofPolygons unitTriangle).faces.size,
        (ofPolygons unitTriangle).isDegenerate f degenerateTolerance = false := by
      intro f hf
      obtain rfl := Nat.lt_one_iff.mp hf
      exact sound_unitTriangle
    have hedges (e : Sym2 VertexId) : edgeFaces (ofPolygons unitTriangle).faces.toList e ≤ 2 :=
      List.countP_le_length.trans (by decide)
    obtain ⟨shell, hshell, hsize, -, heven⟩ :=
      shell_closed hself htriangles merged_unitTriangle hsound hedges 1 (-1)
    refine ⟨shell, hshell, ?_, heven⟩
    rw [hsize, boundary_unitTriangle]
    rfl
  · obtain ⟨hfaces, hface, hboundary⟩ := merged_doubleTriangle
    have htriangles : ∀ p ∈ doubleTriangle, p.length = 3 := by simp [doubleTriangle]
    have hsound : ∀ f < doubleTriangle.merged.2.faces.size,
        doubleTriangle.merged.2.isDegenerate f degenerateTolerance = false := by
      intro f hf
      rw [hfaces] at hf
      obtain rfl := Nat.lt_one_iff.mp hf
      exact hface
    have hedges (e : Sym2 VertexId) : edgeFaces doubleTriangle.merged.2.faces.toList e ≤ 2 :=
      List.countP_le_length.trans (by rw [hfaces]; decide)
    obtain ⟨shell, hshell, hsize, -, heven⟩ := shell_closed
      (fun _ _ => Vec3.length_sub_self_lt) htriangles (Prod.eta _).symm hsound hedges 1 (-1)
    refine ⟨shell, hshell, ?_, heven⟩
    rw [hsize, hfaces, hboundary]
    rfl

end Surface

end Arbor
