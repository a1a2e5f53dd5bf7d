import Arbor.Proofs.ClosedShells
import Mathlib.Algebra.Order.Group.Multiset
import Mathlib.Tactic.Abel

namespace Arbor

variable {β γ : Type}

def arrows : List β → List (β × β)
  | [a, b, c] => [(a, b), (b, c), (c, a)]
  | _ => []

theorem arrows_map (f : β → γ) (t : List β) :
    arrows (t.map f) = (arrows t).map (Prod.map f f) := by
  match t with
  | [] | [_] | [_, _] | [_, _, _] | _ :: _ :: _ :: _ :: _ => rfl

theorem arrows_turned (t : List β) : arrows (turned t) = ((arrows t).map Prod.swap).reverse := by
  match t with
  | [] | [_] | [_, _] | [_, _, _] | _ :: _ :: _ :: _ :: _ => rfl

theorem sides_eq_map (t : List β) : sides t = (arrows t).map fun e => s(e.1, e.2) := by
  match t with
  | [] | [_] | [_, _] | [_, _, _] | _ :: _ :: _ :: _ :: _ => rfl

theorem mem_of_arrow {t : List β} {e : β × β} (he : e ∈ arrows t) : e.1 ∈ t ∧ e.2 ∈ t := by
  unfold arrows at he
  split at he
  · simp only [List.mem_cons, List.not_mem_nil, or_false] at he
    rcases he with rfl | rfl | rfl <;> simp
  · cases he

theorem side_of_corners {t : List β} {v w : β} (ht : t.length = 3) (hv : v ∈ t) (hw : w ∈ t)
    (hvw : v ≠ w) : s(v, w) ∈ sides t := by
  obtain ⟨a, b, c, rfl⟩ := List.length_eq_three.mp ht
  simp only [List.mem_cons, List.not_mem_nil, or_false] at hv hw
  rcases hv with rfl | rfl | rfl <;> rcases hw with rfl | rfl | rfl <;>
    simp_all [sides, Sym2.eq_swap]

theorem arrow_of_corners {t : List β} {v w : β} (ht : t.length = 3) (hv : v ∈ t) (hw : w ∈ t)
    (hvw : v ≠ w) : (v, w) ∈ arrows t ∨ (w, v) ∈ arrows t := by
  have hside := side_of_corners ht hv hw hvw
  rw [sides_eq_map] at hside
  obtain ⟨⟨x, y⟩, he, hxy⟩ := List.mem_map.mp hside
  rcases Sym2.eq_iff.mp hxy with ⟨rfl, rfl⟩ | ⟨rfl, rfl⟩
  · exact .inl he
  · exact .inr he

theorem count_undirected [DecidableEq β] {edges : List (β × β)} {a b : β} (hab : a ≠ b) :
    (edges.map fun e => s(e.1, e.2)).count s(a, b) = edges.count (a, b) + edges.count (b, a) := by
  induction edges with
  | nil => rfl
  | cons e edges ih =>
      obtain ⟨x, y⟩ := e
      rw [List.map_cons, List.count_cons, List.count_cons, List.count_cons, ih]
      simp only [beq_iff_eq, Sym2.eq_iff, Prod.mk.injEq]
      grind

/-- Edges in both directions equally often. -/
def Balanced (edges : List (β × β)) : Prop := (edges.map Prod.swap).Perm edges

/-- Edges that come to every corner as often as they leave it. -/
def Closed (edges : List (β × β)) : Prop := (edges.map Prod.fst).Perm (edges.map Prod.snd)

theorem count_swap [BEq β] [LawfulBEq β] (edges : List (β × β)) (a b : β) :
    (edges.map Prod.swap).count (a, b) = edges.count (b, a) :=
  List.count_map_of_injective edges Prod.swap Prod.swap_injective (b, a)

theorem balanced_iff [BEq β] [LawfulBEq β] {edges : List (β × β)} :
    Balanced edges ↔ ∀ a b, edges.count (a, b) = edges.count (b, a) := by
  rw [Balanced, List.perm_iff_count]
  constructor
  · exact fun h a b => (h (a, b)).symm.trans (count_swap edges a b)
  · exact fun h e => (count_swap edges e.1 e.2).trans (h e.2 e.1)

theorem Balanced.closed {edges : List (β × β)} (h : Balanced edges) : Closed edges := by
  have hfst := List.Perm.map Prod.fst h
  rw [List.map_map] at hfst
  exact hfst.symm

theorem even_of_balanced [DecidableEq β] {faces : List (List β)}
    (h : Balanced (faces.flatMap arrows)) {a b : β} (hab : a ≠ b) :
    Even ((faces.flatMap sides).count s(a, b)) := by
  rw [List.flatMap_congr fun t _ => sides_eq_map t, ← List.map_flatMap, count_undirected hab,
    balanced_iff.mp h b a]
  exact Even.add_self _

theorem closed_arrows (faces : List (List β)) : Closed (faces.flatMap arrows) := by
  induction faces with
  | nil => exact .nil
  | cons t faces ih =>
      have ht : Closed (arrows t) := by
        unfold arrows
        split
        next a b c => exact (List.perm_append_comm : ([a] ++ [b, c]).Perm ([b, c] ++ [a]))
        next => exact .nil
      unfold Closed at ht ih ⊢
      rw [List.flatMap_cons, List.map_append, List.map_append]
      exact ht.append ih

section Outline

variable {edges : List (VertexId × VertexId)}

/-- The edges that no other edge repeats in either direction. -/
def outline (edges : List (VertexId × VertexId)) : List (VertexId × VertexId) :=
  edges.filter fun e => edges.countP (Mesh.sameEdge e) == 1

def inner (edges : List (VertexId × VertexId)) : List (VertexId × VertexId) :=
  edges.filter fun e => !(edges.countP (Mesh.sameEdge e) == 1)

theorem outline_append_inner (edges : List (VertexId × VertexId)) :
    (outline edges ++ inner edges).Perm edges :=
  List.filter_append_perm _ edges

theorem sameEdge_swap (e : VertexId × VertexId) : Mesh.sameEdge e.swap = Mesh.sameEdge e := by
  funext d
  rw [Mesh.sameEdge, Mesh.sameEdge, Prod.swap_swap, Bool.or_comm]

theorem countP_sameEdge {v w : VertexId} (hvw : v ≠ w) :
    edges.countP (Mesh.sameEdge (v, w)) = edges.count (v, w) + edges.count (w, v) := by
  rw [← count_undirected hvw, List.count, List.countP_map]
  refine List.countP_congr fun d _ => ?_
  simp [Mesh.sameEdge_iff]

theorem balanced_inner (hedges : ∀ e, edges.count e ≤ 1) : Balanced (inner edges) := by
  have hcount (e : VertexId × VertexId) : (inner edges).count e =
      if edges.countP (Mesh.sameEdge e) = 1 then 0 else edges.count e := by
    split
    next h =>
      refine List.count_eq_zero_of_not_mem fun hmem => ?_
      simpa [h] using (List.mem_filter.mp hmem).2
    next h =>
      refine List.count_filter (p := fun e => !(edges.countP (Mesh.sameEdge e) == 1)) ?_
      simpa using h
  refine balanced_iff.mpr fun v w => ?_
  rw [hcount, hcount, ← sameEdge_swap (v, w), Prod.swap_prod_mk]
  by_cases hvw : v = w
  · rw [hvw]
  · have hle := hedges (v, w)
    have hle' := hedges (w, v)
    rw [countP_sameEdge (Ne.symm hvw)]
    split <;> omega

theorem closed_outline (hedges : ∀ e, edges.count e ≤ 1) (h : Closed edges) :
    Closed (outline edges) := by
  have hsplit := outline_append_inner edges
  have hboth : ((outline edges ++ inner edges).map Prod.fst).Perm
      ((outline edges ++ inner edges).map Prod.snd) :=
    (hsplit.map _).trans (h.trans (hsplit.map _).symm)
  rw [List.map_append, List.map_append] at hboth
  have hinner : ((inner edges).map Prod.fst).Perm ((inner edges).map Prod.snd) :=
    (balanced_inner hedges).closed
  exact (List.perm_append_right_iff _).mp (hboth.trans (hinner.symm.append_left _))

end Outline

/-- Two copies of a surface, wound opposite ways, and a strip along its boundary. -/
def wound (faces : List (List β)) (boundary : List (β × β)) : List (List (β × Side)) :=
  faces.map (List.map (·, .front)) ++ faces.map (fun t => turned (t.map (·, .back))) ++
    boundary.flatMap stripTriangles

def across (i j : Side) (e : β × β) : (β × Side) × (β × Side) := ((e.1, i), (e.2, j))

def fromFront (x : β) : (β × Side) × (β × Side) := ((x, .front), (x, .back))

def fromBack (x : β) : (β × Side) × (β × Side) := ((x, .back), (x, .front))

@[simp]
theorem swap_across (i j : Side) (e : β × β) : (across i j e).swap = across j i e.swap := rfl

@[simp]
theorem swap_fromFront (x : β) : (fromFront x).swap = fromBack x := rfl

@[simp]
theorem swap_fromBack (x : β) : (fromBack x).swap = fromFront x := rfl

theorem arrows_strip (e : β × β) : (stripTriangles e).flatMap arrows =
    [fromFront e.1, across .back .front e, across .front .front e.swap,
      across .front .back e.swap, across .back .back e, fromBack e.2] := rfl

theorem arrows_copy (faces : List (List β)) (side : Side) :
    (faces.map (List.map (·, side))).flatMap arrows =
      (faces.flatMap arrows).map (across side side) := by
  rw [List.flatMap_map, List.map_flatMap]
  exact List.flatMap_congr fun t _ => arrows_map (·, side) t

theorem arrows_turned_copy (faces : List (List β)) (side : Side) :
    ((faces.map fun t => turned (t.map (·, side))).flatMap arrows).Perm
      (((faces.flatMap arrows).map Prod.swap).map (across side side)) := by
  induction faces with
  | nil => exact .nil
  | cons t faces ih =>
      have ht : (arrows (turned (t.map (·, side)))).Perm
          (((arrows t).map Prod.swap).map (across side side)) := by
        rw [arrows_turned, arrows_map, List.map_map, List.map_map]
        exact List.reverse_perm _
      rw [List.map_cons, List.flatMap_cons, List.flatMap_cons, List.map_append, List.map_append]
      exact ht.append ih

theorem arrows_strips (boundary : List (β × β)) :
    let border : Multiset (β × β) := boundary
    (((boundary.flatMap stripTriangles).flatMap arrows : List _) : Multiset _) =
      border.map (fun e => fromFront e.1) + border.map (across .back .front) +
        border.map (fun e => across .front .front e.swap) +
        border.map (fun e => across .front .back e.swap) +
        border.map (across .back .back) + border.map fun e => fromBack e.2 := by
  induction boundary with
  | nil => rfl
  | cons e boundary ih =>
      dsimp only at ih ⊢
      rw [List.flatMap_cons, List.flatMap_append, arrows_strip, ← Multiset.coe_add, ih]
      simp only [← Multiset.cons_coe, Multiset.map_cons]
      simp only [← Multiset.singleton_add, Multiset.coe_nil]
      abel

theorem arrows_wound (faces : List (List β)) (boundary : List (β × β)) :
    let edges : Multiset (β × β) := ((faces.flatMap arrows : List _) : Multiset _)
    (((wound faces boundary).flatMap arrows : List _) : Multiset _) =
      edges.map (across .front .front) + (edges.map Prod.swap).map (across .back .back) +
        (((boundary.flatMap stripTriangles).flatMap arrows : List _) : Multiset _) := by
  rw [wound, List.flatMap_append, List.flatMap_append, arrows_copy, ← Multiset.coe_add,
    ← Multiset.coe_add, Multiset.coe_eq_coe.mpr (arrows_turned_copy faces .back)]
  rfl

/-- Where no edge is run along twice, every edge of the copies and the strip is run along as often
one way as the other. -/
theorem balanced_wound {faces : List (List VertexId)}
    (hedges : ∀ e, (faces.flatMap arrows).count e ≤ 1) :
    Balanced ((wound faces (outline (faces.flatMap arrows))).flatMap arrows) := by
  have hsplit := Multiset.coe_eq_coe.mpr (outline_append_inner (faces.flatMap arrows))
  have hinner := Multiset.coe_eq_coe.mpr (balanced_inner hedges)
  have hclosed := Multiset.coe_eq_coe.mpr (closed_outline hedges (closed_arrows faces))
  rw [Balanced, ← Multiset.coe_eq_coe, ← Multiset.map_coe, arrows_wound, arrows_strips]
  rw [← Multiset.map_coe] at hinner
  rw [← Multiset.map_coe, ← Multiset.map_coe] at hclosed
  rw [← hsplit, ← Multiset.coe_add]
  generalize Multiset.ofList (outline (faces.flatMap arrows)) = border at *
  generalize Multiset.ofList (inner (faces.flatMap arrows)) = paired at *
  have hpaired {γ : Type} (f : VertexId × VertexId → γ) :
      paired.map (fun e => f e.swap) = paired.map f := by
    conv_rhs => rw [← hinner, Multiset.map_map]
    rfl
  have hends {γ : Type} (f : VertexId → γ) :
      border.map (fun e => f e.1) = border.map (fun e => f e.2) := by
    have h := congrArg (Multiset.map f) hclosed
    rwa [Multiset.map_map, Multiset.map_map] at h
  simp only [Multiset.map_add, Multiset.map_map, Function.comp_def, swap_across, swap_fromFront,
    swap_fromBack, Prod.swap_swap]
  rw [hpaired (across .front .front), hpaired (across .back .back), hends fromBack, hends fromFront]
  abel

end Arbor
