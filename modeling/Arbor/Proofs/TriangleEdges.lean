import Mathlib.Algebra.BigOperators.Group.Finset.Lemmas
import Mathlib.Algebra.BigOperators.Ring.List
import Mathlib.Algebra.Group.Nat.Even
import Mathlib.Data.Sym.Sym2
import Mathlib.Tactic.Ring

namespace Arbor

variable {β : Type}

def sides : List β → List (Sym2 β)
  | [a, b, c] => [s(a, b), s(b, c), s(c, a)]
  | _ => []

/-- The same triangle, wound the other way. -/
def turned : List β → List β
  | [a, b, c] => [a, c, b]
  | t => t

theorem length_turned (t : List β) : (turned t).length = t.length := by
  unfold turned
  split <;> rfl

theorem turned_turned (t : List β) : turned (turned t) = t := by
  match t with
  | [] | [_] | [_, _] | [_, _, _] | _ :: _ :: _ :: _ :: _ => rfl

theorem mem_turned {t : List β} {b : β} : b ∈ turned t ↔ b ∈ t := by
  unfold turned
  split
  · simp [or_comm]
  · rfl

theorem sides_turned (t : List β) : (sides (turned t)).Perm (sides t) := by
  unfold turned
  split
  next a b c =>
    have hab : s(b, a) = s(a, b) := Sym2.eq_swap
    have hbc : s(c, b) = s(b, c) := Sym2.eq_swap
    have hca : s(a, c) = s(c, a) := Sym2.eq_swap
    simp only [sides, hab, hbc, hca]
    exact List.reverse_perm [s(a, b), s(b, c), s(c, a)]
  · exact .refl _

theorem nodup_sides {t : List β} (h : t.Nodup) : (sides t).Nodup := by
  unfold sides
  split
  · simp_all [eq_comm]
  · exact List.nodup_nil

theorem ne_of_mem_sides {t : List β} (h : t.Nodup) {v w : β} (hmem : s(v, w) ∈ sides t) :
    v ≠ w := by
  unfold sides at hmem
  split at hmem
  · rintro rfl
    simp only [List.nodup_cons, List.mem_cons, List.not_mem_nil, or_false, not_or] at h
    simp only [List.mem_cons, Sym2.eq_iff, List.not_mem_nil, or_false] at hmem
    grind
  · cases hmem

theorem sides_map {γ : Type} (f : β → γ) (t : List β) :
    sides (t.map f) = (sides t).map (Sym2.map f) := by
  match t with
  | [] | [_] | [_, _] | [_, _, _] | _ :: _ :: _ :: _ :: _ => rfl

variable [DecidableEq β]

def edgeFaces (faces : List (List β)) (e : Sym2 β) : Nat := faces.countP fun t => e ∈ sides t

theorem edgeFaces_eq_count {faces : List (List β)} (h : ∀ t ∈ faces, t.Nodup) (e : Sym2 β) :
    edgeFaces faces e = (faces.flatMap sides).count e := by
  induction faces with
  | nil => rfl
  | cons t faces ih =>
      obtain ⟨ht, hfaces⟩ := List.forall_mem_cons.mp h
      rw [edgeFaces, List.countP_cons, ← edgeFaces, ih hfaces, List.flatMap_cons, List.count_append,
        (nodup_sides ht).count, Nat.add_comm]
      simp

def single (edges : List (Sym2 β)) : List (Sym2 β) := edges.filter fun e => edges.count e == 1

theorem count_single {edges : List (Sym2 β)} (e : Sym2 β) :
    (single edges).count e = if edges.count e = 1 then 1 else 0 := by
  split
  next h => rw [single, List.count_filter (by simpa using h), h]
  next h =>
    refine List.count_eq_zero_of_not_mem fun hmem => h ?_
    simpa using (List.mem_filter.mp hmem).2

theorem even_count_single {edges : List (Sym2 β)} {e : Sym2 β} (h : edges.count e ≤ 2) :
    Even (edges.count e + (single edges).count e) := by
  rw [count_single, Nat.even_iff]
  split <;> omega

/-- The other edges come in pairs, which leave no trace in a sum modulo two. -/
theorem even_single {edges : List (Sym2 β)} (hedges : ∀ e, edges.count e ≤ 2) {w : Sym2 β → Nat}
    (h : Even (edges.map w).sum) : Even ((single edges).map w).sum := by
  let others := edges.filter fun e => !(edges.count e == 1)
  have hsum : ((single edges).map w).sum + (others.map w).sum = (edges.map w).sum := by
    rw [← List.sum_append, ← List.map_append]
    exact ((List.filter_append_perm _ edges).map w).sum_eq
  have hothers : Even (others.map w).sum := by
    rw [Finset.sum_list_map_count]
    refine Finset.even_sum _ fun e he => ?_
    obtain ⟨hmem, hne⟩ := List.mem_filter.mp (List.mem_toFinset.mp he)
    have hpos := List.count_pos_iff.mpr hmem
    have htwo : others.count e = 2 := by
      have hle := hedges e
      have hcount : others.count e = edges.count e :=
        List.count_filter (p := fun e => !(edges.count e == 1)) hne
      have hone : edges.count e ≠ 1 := by simpa using hne
      omega
    rw [htwo, two_nsmul]
    exact Even.add_self _
  exact (Nat.even_add.mp (hsum ▸ h)).mpr hothers

def ends (x : β) : Sym2 β → Nat :=
  Sym2.lift ⟨fun v w => (if v = x then 1 else 0) + (if w = x then 1 else 0),
    fun _ _ => Nat.add_comm ..⟩

theorem ends_mk (x v w : β) :
    ends x s(v, w) = (if v = x then 1 else 0) + (if w = x then 1 else 0) := rfl

theorem even_ends (x : β) (faces : List (List β)) :
    Even (((faces.flatMap sides).map (ends x)).sum) := by
  induction faces with
  | nil => exact Even.zero
  | cons t faces ih =>
      rw [List.flatMap_cons, List.map_append, List.sum_append]
      refine Even.add ?_ ih
      unfold sides
      split
      next a b c =>
        refine ⟨(if a = x then 1 else 0) + (if b = x then 1 else 0) + (if c = x then 1 else 0), ?_⟩
        simp only [List.map_cons, List.map_nil, List.sum_cons, List.sum_nil, ends_mk]
        ring
      · exact Even.zero

inductive Side where
  | front
  | back
deriving DecidableEq, Repr

/-- The two triangles between the copies of an edge. -/
def stripTriangles (e : β × β) : List (List (β × Side)) :=
  [[(e.1, .front), (e.1, .back), (e.2, .front)], [(e.2, .front), (e.1, .back), (e.2, .back)]]

def doubled (faces : List (List β)) (boundary : List (β × β)) : List (List (β × Side)) :=
  faces.map (List.map (·, .front)) ++ faces.map (List.map (·, .back)) ++
    boundary.flatMap stripTriangles

theorem count_side (edges : List (Sym2 β)) (x y : β) (side i j : Side) :
    (edges.map (Sym2.map (·, side))).count s((x, i), (y, j)) =
      if i = side ∧ j = side then edges.count s(x, y) else 0 := by
  split
  next h =>
    obtain ⟨rfl, rfl⟩ := h
    exact List.count_map_of_injective _ _ (Sym2.map.injective (Prod.mk_left_injective _)) s(x, y)
  next h =>
    refine List.count_eq_zero_of_not_mem fun hmem => h ?_
    obtain ⟨e, -, he⟩ := List.mem_map.mp hmem
    induction e with | _ v w
    rw [Sym2.map_mk, Sym2.eq_iff, Prod.mk.injEq, Prod.mk.injEq, Prod.mk.injEq, Prod.mk.injEq] at he
    rcases he with ⟨⟨-, rfl⟩, -, rfl⟩ | ⟨⟨-, rfl⟩, -, rfl⟩ <;> exact ⟨rfl, rfl⟩

theorem count_strip_same (side : Side) (e : β × β) (x y : β) :
    ((stripTriangles e).flatMap sides).count s((x, side), (y, side)) =
      [s(e.1, e.2)].count s(x, y) := by
  obtain ⟨v, w⟩ := e
  cases side with
  | front => simp [stripTriangles, sides, List.count_cons, and_comm, or_comm]
  | back => simp [stripTriangles, sides, List.count_cons]

theorem count_strip_across (e : β × β) (x y : β) :
    ((stripTriangles e).flatMap sides).count s((x, .front), (y, .back)) =
      (if x = y then ends x s(e.1, e.2) else 0) + 2 * [(e.2, e.1)].count (x, y) := by
  obtain ⟨v, w⟩ := e
  simp only [stripTriangles, List.flatMap_cons, List.flatMap_nil, sides, List.cons_append,
    List.nil_append, List.count_cons, List.count_nil, ends_mk, beq_iff_eq, Sym2.eq_iff,
    Prod.mk.injEq]
  grind

section Doubled

variable {faces : List (List β)} {boundary : List (β × β)}

omit [DecidableEq β] in
theorem length_strips : (boundary.flatMap stripTriangles).length = 2 * boundary.length := by
  rw [List.length_flatMap]
  simp [stripTriangles, Nat.mul_comm]

omit [DecidableEq β] in
theorem length_doubled :
    (doubled faces boundary).length = 2 * faces.length + 2 * boundary.length := by
  rw [doubled, List.length_append, List.length_append, length_strips, List.length_map,
    List.length_map]
  omega

omit [DecidableEq β] in
theorem nodup_doubled (hfaces : ∀ t ∈ faces, t.Nodup) (hboundary : ∀ e ∈ boundary, e.1 ≠ e.2) :
    ∀ t ∈ doubled faces boundary, t.Nodup := by
  have hcopy (side : Side) : ∀ t ∈ faces.map (List.map (·, side)), t.Nodup := by
    intro t ht
    obtain ⟨u, hu, rfl⟩ := List.mem_map.mp ht
    exact (hfaces u hu).map (Prod.mk_left_injective side)
  intro t ht
  rcases List.mem_append.mp ht with ht | ht
  · exact (List.mem_append.mp ht).elim (hcopy .front t) (hcopy .back t)
  · obtain ⟨e, he, ht⟩ := List.mem_flatMap.mp ht
    have hne := hboundary e he
    rcases List.mem_pair.mp ht with rfl | rfl <;> simp [hne, hne.symm]

omit [DecidableEq β] in
theorem flatMap_sides_map {γ : Type} (f : β → γ) :
    (faces.map (List.map f)).flatMap sides = (faces.flatMap sides).map (Sym2.map f) := by
  rw [List.flatMap_map, List.map_flatMap]
  exact List.flatMap_congr fun t _ => sides_map f t

theorem count_doubled (x y : β) (i j : Side) :
    ((doubled faces boundary).flatMap sides).count s((x, i), (y, j)) =
      (if i = j then (faces.flatMap sides).count s(x, y) else 0) +
        (boundary.map fun e => ((stripTriangles e).flatMap sides).count s((x, i), (y, j))).sum := by
  rw [doubled, List.flatMap_append, List.flatMap_append, List.count_append, List.count_append,
    flatMap_sides_map, flatMap_sides_map, count_side, count_side, List.flatMap_assoc,
    List.count_flatMap (l := boundary)]
  congr 1
  cases i <;> cases j <;> simp

section Parity

variable (hcount : ∀ e, (faces.flatMap sides).count e ≤ 2)
  (hboundary : boundary.map (fun e => s(e.1, e.2)) = single (faces.flatMap sides))

include hcount hboundary

theorem even_same (x y : β) (side : Side) :
    Even (((doubled faces boundary).flatMap sides).count s((x, side), (y, side))) := by
  have hstrip : (boundary.map fun e =>
      ((stripTriangles e).flatMap sides).count s((x, side), (y, side))).sum =
        (single (faces.flatMap sides)).count s(x, y) := by
    rw [← hboundary, List.map_eq_flatMap (l := boundary) (f := fun e => s(e.1, e.2)),
      List.count_flatMap]
    exact congrArg List.sum (List.map_congr_left fun e _ => count_strip_same side e x y)
  rw [count_doubled, hstrip, if_pos rfl]
  exact even_count_single (hcount s(x, y))

/-- Between the two copies of a vertex there is an edge for each boundary edge that ends there. -/
theorem even_across (x y : β) :
    Even (((doubled faces boundary).flatMap sides).count s((x, .front), (y, .back))) := by
  rw [count_doubled, if_neg (by decide), Nat.zero_add]
  -- diagonals of the strip belong to both of its triangles
  simp only [count_strip_across, List.sum_map_add, List.sum_map_mul_left]
  refine Even.add ?_ (even_two_mul _)
  by_cases hxy : x = y
  · simp only [if_pos hxy]
    have h := even_single hcount (even_ends x faces)
    rw [← hboundary, List.map_map] at h
    exact h
  · simp [hxy]

end Parity

theorem ne_of_boundary (hfaces : ∀ t ∈ faces, t.Nodup)
    (hboundary : boundary.map (fun e => s(e.1, e.2)) = single (faces.flatMap sides)) :
    ∀ e ∈ boundary, e.1 ≠ e.2 := by
  intro e he
  have hmem : s(e.1, e.2) ∈ single (faces.flatMap sides) := hboundary ▸ List.mem_map_of_mem he
  obtain ⟨t, ht, hmem⟩ := List.mem_flatMap.mp (List.mem_filter.mp hmem).1
  exact ne_of_mem_sides (hfaces t ht) hmem

theorem even_doubled (hfaces : ∀ t ∈ faces, t.Nodup) (hedges : ∀ e, edgeFaces faces e ≤ 2)
    (hboundary : boundary.map (fun e => s(e.1, e.2)) = single (faces.flatMap sides))
    (e : Sym2 (β × Side)) : Even (edgeFaces (doubled faces boundary) e) := by
  have hcount (e : Sym2 β) : (faces.flatMap sides).count e ≤ 2 :=
    edgeFaces_eq_count hfaces e ▸ hedges e
  rw [edgeFaces_eq_count (nodup_doubled hfaces (ne_of_boundary hfaces hboundary))]
  induction e with | _ a b
  obtain ⟨x, i⟩ := a
  obtain ⟨y, j⟩ := b
  cases i with
  | front =>
      cases j with
      | front => exact even_same hcount hboundary x y .front
      | back => exact even_across hcount hboundary x y
  | back =>
      cases j with
      | front => exact Sym2.eq_swap ▸ even_across hcount hboundary y x
      | back => exact even_same hcount hboundary x y .back

end Doubled

end Arbor
