import Arbor.Proofs.MeshTables
import Arbor.Proofs.TriangleEdges
import Mathlib.Data.List.Forall2

namespace Arbor

variable {α β : Type}

theorem exists_of_forall₂_left {γ : Type} {R : β → γ → Prop} {xs : List β} {ys : List γ}
    (h : List.Forall₂ R xs ys) {x : β} (hx : x ∈ xs) : ∃ y ∈ ys, R x y := by
  obtain ⟨i, hi, rfl⟩ := List.getElem_of_mem hx
  exact ⟨_, List.getElem_mem _, h.get hi (h.length_eq ▸ hi)⟩

theorem exists_of_forall₂_right {γ : Type} {R : β → γ → Prop} {xs : List β} {ys : List γ}
    (h : List.Forall₂ R xs ys) {y : γ} (hy : y ∈ ys) : ∃ x ∈ xs, R x y := by
  obtain ⟨i, hi, rfl⟩ := List.getElem_of_mem hy
  exact ⟨_, List.getElem_mem _, h.get (h.length_eq ▸ hi) hi⟩

theorem forall₂_turned {γ : Type} {R : β → γ → Prop} {t : List β} {u : List γ}
    (h : List.Forall₂ R t u) : List.Forall₂ R (turned t) (turned u) := by
  match h with
  | .nil => exact .nil
  | .cons ha .nil => exact .cons ha .nil
  | .cons ha (.cons hb .nil) => exact .cons ha (.cons hb .nil)
  | .cons ha (.cons hb (.cons hc .nil)) => exact .cons ha (.cons hc (.cons hb .nil))
  | .cons ha (.cons hb (.cons hc (.cons hd h))) =>
      exact .cons ha (.cons hb (.cons hc (.cons hd h)))

theorem forall₂_set {γ : Type} {R : β → γ → Prop} {xs : List β} {ys : List γ}
    (h : List.Forall₂ R xs ys) {i : Nat} {x : β} (hx : ∀ z y, xs[i]? = some z → R z y → R x y) :
    List.Forall₂ R (xs.set i x) ys := by
  induction h generalizing i with
  | nil => exact .nil
  | cons hxy hrest ih =>
      cases i with
      | zero => exact .cons (hx _ _ rfl hxy) hrest
      | succ i => exact .cons hxy (ih hx)

namespace Mesh

variable [Scalar α] {place : β → Vec3 α → Prop} {m m' : Mesh α} {names names' : List β}
  {faces faces' : List (List β)} {t : List β} {corners : List VertexId}

/-- The corners are those of `t`, in the order of `t` or of its reverse. -/
def Shows (place : β → Vec3 α → Prop) (m : Mesh α) (names : List β) (corners : List VertexId)
    (t : List β) : Prop :=
  ∃ u, (u = t ∨ u = turned t) ∧
    List.Forall₂ (fun v b => names[v]? = some b ∧ place b (m.position v)) corners u

structure Depicts (place : β → Vec3 α → Prop) (m : Mesh α) (names : List β)
    (faces : List (List β)) : Prop where
  size : names.length = m.vertices.size
  faces : List.Forall₂ (Shows place m names) m.faces.toList faces

namespace Shows

theorem length (h : Shows place m names corners t) : corners.length = t.length := by
  obtain ⟨u, rfl | rfl, h⟩ := h
  · exact h.length_eq
  · rw [h.length_eq, length_turned]

theorem map (h : Shows place m names corners t) (shift : VertexId → VertexId)
    (hnames : ∀ (v : Nat) b, names[v]? = some b → names'[shift v]? = some b)
    (hposition : ∀ (v : Nat) b, names[v]? = some b → m'.position (shift v) = m.position v) :
    Shows place m' names' (corners.map shift) t := by
  obtain ⟨u, hu, h⟩ := h
  refine ⟨u, hu, List.forall₂_map_left_iff.mpr (h.imp fun v b hv => ⟨hnames v b hv.1, ?_⟩)⟩
  rw [hposition v b hv.1]
  exact hv.2

theorem mono (h : Shows place m names corners t)
    (hnames : ∀ (v : Nat) b, names[v]? = some b → names'[v]? = some b)
    (hposition : ∀ (v : Nat) b, names[v]? = some b → m'.position v = m.position v) :
    Shows place m' names' corners t := by
  simpa using h.map id hnames hposition

theorem turned (h : Shows place m names corners t) :
    Shows place m names (turned corners) t := by
  obtain ⟨u, hu, h⟩ := h
  refine ⟨Arbor.turned u, ?_, forall₂_turned h⟩
  rcases hu with rfl | rfl
  · exact .inr rfl
  · exact .inl (turned_turned t)

theorem sides (h : Shows place m names corners t) {name : VertexId → β}
    (hname : ∀ (v : Nat) b, names[v]? = some b → name v = b) :
    (sides (corners.map name)).Perm (sides t) := by
  obtain ⟨u, hu, h⟩ := h
  have he : corners.map name = u := by
    rw [← List.forall₂_eq_eq_eq, List.forall₂_map_left_iff]
    exact h.imp fun v b hv => hname v b hv.1
  rw [he]
  rcases hu with rfl | rfl
  · exact .refl _
  · exact sides_turned t

end Shows

namespace Depicts

theorem empty : Depicts place ({} : Mesh α) [] [] := ⟨rfl, .nil⟩

theorem length (h : Depicts place m names faces) : m.faces.size = faces.length := by
  rw [← h.faces.length_eq, Array.length_toList]

theorem addVertices (h : Depicts place m names faces) {extra : List β} {points : List (Vec3 α)}
    (hextra : extra.length = points.length) :
    Depicts place (m.addVertices points) (names ++ extra) faces := by
  refine ⟨by rw [List.length_append, h.size, hextra, size_addVertices], ?_⟩
  refine h.faces.imp fun corners t ht => ht.mono ?_ ?_
  · intro v b hv
    exact List.getElem?_append_left (List.getElem?_eq_some_iff.mp hv).1 ▸ hv
  · intro v b hv
    rw [position_addVertices, if_pos (h.size ▸ (List.getElem?_eq_some_iff.mp hv).1)]

theorem pushFace (h : Depicts place m names faces) (ht : Shows place m names corners t) :
    Depicts place (m.pushFace corners).2 names (faces ++ [t]) := by
  have hshows {c : List VertexId} {u : List β} (h : Shows place m names c u) :
      Shows place (m.pushFace corners).2 names c u :=
    h.mono (fun _ _ => id) fun v b _ => m.position_pushFace v _
  refine ⟨by rw [h.size, size_pushFace], ?_⟩
  rw [faces_pushFace, Array.toList_push]
  exact List.rel_append (h.faces.imp fun _ _ => hshows) (.cons (hshows ht) .nil)

theorem foldl_pushFace {ι : Type} {xs : List ι} {face : ι → List VertexId} {ts : List (List β)}
    (h : Depicts place m names faces)
    (hxs : List.Forall₂ (fun x t => Shows place m names (face x) t) xs ts) :
    Depicts place (xs.foldl (fun m x => (m.pushFace (face x)).2) m) names (faces ++ ts) := by
  induction xs generalizing m faces ts with
  | nil =>
      cases hxs
      simpa using h
  | cons x xs ih =>
      obtain ⟨t, ts, hx, hrest, rfl⟩ := List.forall₂_cons_left_iff.mp hxs
      rw [List.append_cons]
      refine ih (h.pushFace hx) (hrest.imp fun y u hy => hy.mono (fun _ _ => id) fun v b _ => ?_)
      exact m.position_pushFace v _

theorem append {other : Mesh α} (h : Depicts place m names faces)
    (hother : Depicts place other names' faces') :
    Depicts place (m.append other) (names ++ names') (faces ++ faces') := by
  have hlength : names'.length = (other.vertices.toList.map Vertex.position).length := by
    rw [hother.size, List.length_map, Array.length_toList]
  rw [append_eq]
  refine (h.addVertices hlength).foldl_pushFace ?_
  refine hother.faces.imp fun corners t ht => ht.map _ ?_ ?_
  · intro v b hv
    rw [← h.size, Nat.add_comm, List.getElem?_append_right (Nat.le_add_right ..),
      Nat.add_sub_cancel_left]
    exact hv
  · intro v b hv
    rw [position_addVertices, if_neg (by omega), Nat.add_sub_cancel, position_eq_map,
      List.getElem?_map, Array.getElem?_toList]

theorem addPolygon (h : Depicts place m names faces) {points : List (Vec3 α)}
    (ht : List.Forall₂ place t points) :
    Depicts place (m.addPolygon points).2 (names ++ t) (faces ++ [t]) := by
  rw [addPolygon_eq]
  refine (h.addVertices ht.length_eq).pushFace ⟨t, .inl rfl, ?_⟩
  refine List.forall₂_iff_get.mpr ⟨by rw [List.length_range', ht.length_eq], fun i hi hi' => ?_⟩
  have hpoint := ht.get hi' (ht.length_eq ▸ hi')
  simp only [List.get_eq_getElem, List.getElem_range', one_mul] at hpoint ⊢
  constructor
  · rw [← h.size, List.getElem?_append_right (Nat.le_add_right ..), Nat.add_sub_cancel_left,
      List.getElem?_eq_getElem hi']
  · rw [position_addVertices, if_neg (by omega), Nat.add_sub_cancel_left,
      List.getElem?_eq_getElem (ht.length_eq ▸ hi')]
    exact hpoint

theorem corners_length (h : Depicts place m names faces) (hfaces : ∀ t ∈ faces, t.length = 3)
    {f : FaceId} (hf : f < m.faces.size) : (m.corners f).length = 3 := by
  have hshows := h.faces.get (by simpa using hf) (h.length ▸ hf)
  rw [corners, Array.getElem?_eq_getElem hf, Option.getD_some]
  exact hshows.length.trans (hfaces _ (List.getElem_mem _))

theorem invert (h : Depicts place m names faces) (hfaces : ∀ t ∈ faces, t.length = 3)
    {f : FaceId} (hf : f < m.faces.size) :
    ∃ m', m.invert f = .ok m' ∧ m'.faces.size = m.faces.size ∧ Depicts place m' names faces := by
  obtain ⟨a, b, c, he⟩ := List.length_eq_three.mp (h.corners_length hfaces hf)
  have hget : m.faces[f]? = some [a, b, c] := by
    rw [← he, corners, Array.getElem?_eq_getElem hf, Option.getD_some]
  refine ⟨{ m with faces := m.faces.setIfInBounds f [a, c, b] }, by rw [Mesh.invert, hget],
    Array.size_setIfInBounds, h.size, ?_⟩
  rw [Array.toList_setIfInBounds]
  refine forall₂_set h.faces fun corners t hcorners ht => ?_
  obtain rfl : [a, b, c] = corners :=
    Option.some.inj (hget.symm.trans (Array.getElem?_toList.symm.trans hcorners))
  exact ht.turned

theorem corner_mem (h : Depicts place m names faces) {corners : List VertexId}
    (hcorners : corners ∈ m.faces.toList) {v : VertexId} (hv : v ∈ corners) :
    ∃ t ∈ faces, ∃ b ∈ t, names[v]? = some b ∧ place b (m.position v) := by
  obtain ⟨t, ht, u, hu, hshows⟩ := exists_of_forall₂_left h.faces hcorners
  obtain ⟨b, hb, hplace⟩ := exists_of_forall₂_left hshows hv
  exact ⟨t, ht, b, hu.elim (· ▸ hb) fun he => mem_turned.mp (he ▸ hb), hplace⟩

theorem corner (h : Depicts place m names faces) {corners : List VertexId}
    (hcorners : corners ∈ m.faces.toList) {v : VertexId} (hv : v ∈ corners) :
    ∃ b, names[v]? = some b ∧ place b (m.position v) := by
  obtain ⟨-, -, b, -, hplace⟩ := h.corner_mem hcorners hv
  exact ⟨b, hplace⟩

theorem exists_corner (h : Depicts place m names faces) (ht : t ∈ faces) {b : β} (hb : b ∈ t) :
    ∃ corners ∈ m.faces.toList, ∃ v ∈ corners, names[v]? = some b ∧ place b (m.position v) := by
  obtain ⟨corners, hcorners, u, hu, hshows⟩ := exists_of_forall₂_right h.faces ht
  have hbu : b ∈ u := hu.elim (· ▸ hb) fun he => he ▸ mem_turned.mpr hb
  obtain ⟨v, hv, hplace⟩ := exists_of_forall₂_right hshows hbu
  exact ⟨corners, hcorners, v, hv, hplace⟩

theorem edgeFaces_eq [DecidableEq β] (h : Depicts place m names faces) {name : VertexId → β}
    (hname : ∀ (v : Nat) b, names[v]? = some b → name v = b) (e : Sym2 β) :
    edgeFaces (m.faces.toList.map (List.map name)) e = edgeFaces faces e := by
  obtain ⟨-, hfaces⟩ := h
  rw [edgeFaces, edgeFaces, List.countP_map]
  generalize m.faces.toList = xs at hfaces ⊢
  induction hfaces with
  | nil => rfl
  | cons ht _ ih => simp [List.countP_cons, (ht.sides hname).mem_iff, ih]

theorem sides (h : Depicts place m names faces) {name : VertexId → β}
    (hname : ∀ (v : Nat) b, names[v]? = some b → name v = b) :
    ((m.faces.toList.map (List.map name)).flatMap sides).Perm (faces.flatMap sides) := by
  obtain ⟨-, hfaces⟩ := h
  generalize m.faces.toList = xs at hfaces ⊢
  induction hfaces with
  | nil => exact .nil
  | cons ht _ ih => exact (ht.sides hname).append ih

end Depicts

end Mesh

end Arbor
