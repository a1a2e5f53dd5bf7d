import Mathlib.Data.List.Permutation
import Mathlib.Tactic.Linarith
import Mathlib.Tactic.LinearCombination
import Mathlib.Tactic.NormNum
import Mathlib.Tactic.Ring
import Arbor.Geometry.Ray
import Arbor.Proofs.ExactScalars

namespace Arbor

namespace Vec3

variable {α : Type} [ExactScalar α]

theorem mul_determinant (e f d s : Vec3 α) : s * e.dot (d.cross f) =
    e * s.dot (d.cross f) + f * d.dot (s.cross e) - d * f.dot (s.cross e) := by
  ext <;> simp only [dot_eq, x_cross, y_cross, z_cross, x_mul, y_mul, z_mul, x_add, y_add, z_add,
    x_sub, y_sub, z_sub] <;> ring

theorem determinants_of_sum (e f d : Vec3 α) (v w a : α) :
    (e * v + f * w - d * a).dot (d.cross f) = v * e.dot (d.cross f) ∧
      d.dot ((e * v + f * w - d * a).cross e) = w * e.dot (d.cross f) ∧
      f.dot ((e * v + f * w - d * a).cross e) = a * e.dot (d.cross f) := by
  simp only [dot_eq, x_cross, y_cross, z_cross, x_mul, y_mul, z_mul, x_add, y_add, z_add, x_sub,
    y_sub, z_sub]
  refine ⟨?_, ?_, ?_⟩ <;> ring

end Vec3

namespace Ray

variable {α : Type} [ExactScalar α] (r : Ray α) (t : Triangle α)

theorem parallelEpsilon_pos : (0 : α) < parallelEpsilon := by
  rw [parallelEpsilon, ExactScalar.ofScientific_eq]
  norm_num

theorem point_eq_pointAt_iff {s v w : α} : r.point s = t.pointAt v w ↔
    r.origin - t.a = (t.b - t.a) * v + (t.c - t.a) * w - r.direction * s := by
  simp only [point, Triangle.pointAt, Vec3.ext_iff, Vec3.x_add, Vec3.y_add, Vec3.z_add, Vec3.x_sub,
    Vec3.y_sub, Vec3.z_sub, Vec3.x_mul, Vec3.y_mul, Vec3.z_mul]
  refine and_congr ?_ (and_congr ?_ ?_) <;> constructor <;> intro h <;> linear_combination h

def determinant : α := (t.b - t.a).dot (r.direction.cross (t.c - t.a))

/-- A ray that is not parallel to a triangle runs through a point of it at a positive parameter. -/
structure Hits (s : α) : Prop where
  steep : parallelEpsilon ≤ |r.determinant t|
  ahead : 0 < s
  inside : t.Contains (r.point s)

variable {r t}

theorem determinant_ne_zero (h : parallelEpsilon ≤ |r.determinant t|) : r.determinant t ≠ 0 :=
  abs_pos.mp (parallelEpsilon_pos.trans_le h)

theorem point_eq_pointAt_iff_of_ne (hne : r.determinant t ≠ 0) {s v w : α} :
    r.point s = t.pointAt v w ↔
      v = (r.origin - t.a).dot (r.direction.cross (t.c - t.a)) * (1 / r.determinant t) ∧
        w = r.direction.dot ((r.origin - t.a).cross (t.b - t.a)) * (1 / r.determinant t) ∧
          s = (t.c - t.a).dot ((r.origin - t.a).cross (t.b - t.a)) * (1 / r.determinant t) := by
  rw [point_eq_pointAt_iff, mul_one_div, mul_one_div, mul_one_div, eq_div_iff hne, eq_div_iff hne,
    eq_div_iff hne]
  have hsum := Vec3.mul_determinant (t.b - t.a) (t.c - t.a) r.direction (r.origin - t.a)
  have hparts := Vec3.determinants_of_sum (t.b - t.a) (t.c - t.a) r.direction v w s
  rw [← determinant] at hsum hparts
  constructor
  · intro h
    rw [h]
    exact ⟨hparts.1.symm, hparts.2.1.symm, hparts.2.2.symm⟩
  · rintro ⟨hv, hw, hs⟩
    rw [← hv, ← hw, ← hs] at hsum
    have hcancel {x e f d : α} (h : x * r.determinant t = e * (v * r.determinant t) +
        f * (w * r.determinant t) - d * (s * r.determinant t)) : x = e * v + f * w - d * s :=
      mul_right_cancel₀ hne (by linear_combination h)
    exact Vec3.ext (hcancel (congrArg Vec3.x hsum)) (hcancel (congrArg Vec3.y hsum))
      (hcancel (congrArg Vec3.z hsum))

theorem meetTriangle?_eq_some_iff {s : α} : r.meetTriangle? t = some s ↔ r.Hits t s := by
  have hsteep : Scalar.abs (r.determinant t) < parallelEpsilon ↔
      ¬ parallelEpsilon ≤ |r.determinant t| := by
    rw [ExactScalar.abs_eq, not_le]
  unfold meetTriangle?
  dsimp only
  rw [← determinant]
  split
  next hparallel => exact iff_of_false nofun fun h => hsteep.mp hparallel h.steep
  next hparallel =>
  have hle : parallelEpsilon ≤ |r.determinant t| := not_not.mp (mt hsteep.mpr hparallel)
  have hweights {s v w : α} := point_eq_pointAt_iff_of_ne (determinant_ne_zero hle) (s := s)
    (v := v) (w := w)
  generalize (r.origin - t.a).dot (r.direction.cross (t.c - t.a)) * (1 / r.determinant t) = v,
    r.direction.dot ((r.origin - t.a).cross (t.b - t.a)) * (1 / r.determinant t) = w,
    (t.c - t.a).dot ((r.origin - t.a).cross (t.b - t.a)) * (1 / r.determinant t) = a at *
  split
  next houtside =>
    refine iff_of_false nofun ?_
    rintro ⟨-, -, v', w', hv, hw, hsum, hpoint⟩
    obtain ⟨rfl, rfl, rfl⟩ := hweights.mp hpoint
    exact houtside ⟨hv, by linarith⟩
  next hfirst =>
  split
  next houtside =>
    refine iff_of_false nofun ?_
    rintro ⟨-, -, v', w', hv, hw, hsum, hpoint⟩
    obtain ⟨rfl, rfl, rfl⟩ := hweights.mp hpoint
    exact houtside.elim hw.not_gt hsum.not_gt
  next hsecond =>
  obtain ⟨hw, hsum⟩ := not_or.mp hsecond
  split
  next hahead =>
    rw [Option.some.injEq]
    constructor
    · rintro rfl
      exact ⟨hle, hahead, v, w, (not_not.mp hfirst).1, not_lt.mp hw, not_lt.mp hsum,
        hweights.mpr ⟨rfl, rfl, rfl⟩⟩
    · rintro ⟨-, -, v', w', -, -, -, hpoint⟩
      exact (hweights.mp hpoint).2.2.symm
  next hbehind =>
    refine iff_of_false nofun ?_
    rintro ⟨-, hahead, v', w', -, -, -, hpoint⟩
    exact hbehind ((hweights.mp hpoint).2.2 ▸ hahead)

variable {a b c : Vec3 α} {s : α}

theorem Hits.swap (h : r.Hits ⟨a, b, c⟩ s) : r.Hits ⟨a, c, b⟩ s := by
  obtain ⟨hsteep, hahead, v, w, hv, hw, hsum, hpoint⟩ := h
  refine ⟨?_, hahead, w, v, hw, hv, add_comm v w ▸ hsum, hpoint.trans ?_⟩
  · have hdet : r.determinant ⟨a, c, b⟩ = -r.determinant ⟨a, b, c⟩ := by
      simp only [determinant, Vec3.dot_eq, Vec3.x_cross, Vec3.y_cross, Vec3.z_cross]
      ring
    rwa [hdet, abs_neg]
  · ext <;> simp [Triangle.pointAt] <;> ring

theorem Hits.rotate (h : r.Hits ⟨a, b, c⟩ s) : r.Hits ⟨b, c, a⟩ s := by
  obtain ⟨hsteep, hahead, v, w, hv, hw, hsum, hpoint⟩ := h
  refine ⟨?_, hahead, w, 1 - v - w, hw, by linarith, by linarith, hpoint.trans ?_⟩
  · have hdet : r.determinant ⟨b, c, a⟩ = r.determinant ⟨a, b, c⟩ := by
      simp only [determinant, Vec3.dot_eq, Vec3.x_cross, Vec3.y_cross, Vec3.z_cross, Vec3.x_sub,
        Vec3.y_sub, Vec3.z_sub]
      ring
    rwa [hdet]
  · ext <;> simp [Triangle.pointAt] <;> ring

theorem Hits.reorder {t u : Triangle α} (h : r.Hits t s) (hu : u.toList.Perm t.toList) :
    r.Hits u s := by
  obtain ⟨a, b, c⟩ := t
  obtain ⟨d, e, f⟩ := u
  have hmem := List.mem_permutations'.mpr hu
  simp only [Triangle.toList, List.permutations', List.permutations'Aux, List.flatMap_cons,
    List.flatMap_nil, List.map_cons, List.map_nil, List.append_nil, List.cons_append,
    List.nil_append, List.mem_cons, List.cons.injEq, and_true, List.not_mem_nil, or_false] at hmem
  obtain ⟨rfl, rfl, rfl⟩ | ⟨rfl, rfl, rfl⟩ | ⟨rfl, rfl, rfl⟩ | ⟨rfl, rfl, rfl⟩ | ⟨rfl, rfl, rfl⟩ |
    ⟨rfl, rfl, rfl⟩ := hmem
  · exact h
  · exact h.swap.rotate.rotate
  · exact h.rotate
  · exact h.swap
  · exact h.rotate.rotate
  · exact h.swap.rotate

/-- A ray that is not almost parallel to a triangle hits it exactly at the parameters in front of
its origin at which it runs through a point of the triangle, whatever the order of the corners. -/
theorem meetTriangle?_exact (r : Ray α) (t : Triangle α) :
    (∀ s, r.meetTriangle? t = some s → 0 < s ∧ t.Contains (r.point s)) ∧
      (∀ s, parallelEpsilon ≤ |(r.direction.cross (t.c - t.a)).dot (t.b - t.a)| → 0 < s →
        t.Contains (r.point s) → r.meetTriangle? t = some s) ∧
      ∀ u : Triangle α, u.toList.Perm t.toList → r.meetTriangle? u = r.meetTriangle? t := by
  refine ⟨fun s h => ?_, fun s hsteep hahead hinside => ?_, fun u hu => ?_⟩
  · obtain ⟨-, hahead, hinside⟩ := meetTriangle?_eq_some_iff.mp h
    exact ⟨hahead, hinside⟩
  · rw [Vec3.dot_comm] at hsteep
    exact meetTriangle?_eq_some_iff.mpr ⟨hsteep, hahead, hinside⟩
  · refine Option.ext fun s => ?_
    rw [meetTriangle?_eq_some_iff, meetTriangle?_eq_some_iff]
    exact ⟨fun h => h.reorder hu.symm, fun h => h.reorder hu⟩

/-- A hit on an edge counts, from whichever corner the triangle is read. -/
theorem meetTriangle?_exact_edge :
    let r : Ray ℝ := ⟨⟨1 / 2, 1 / 2, -1⟩, ⟨0, 0, 2⟩⟩
    let t : Triangle ℝ := ⟨⟨0, 0, 0⟩, ⟨1, 0, 0⟩, ⟨0, 1, 0⟩⟩
    r.meetTriangle? t = some (1 / 2) ∧ r.meetTriangle? ⟨t.c, t.b, t.a⟩ = some (1 / 2) := by
  intro r t
  obtain ⟨-, hcomplete, hreorder⟩ := meetTriangle?_exact r t
  have hsteep : parallelEpsilon ≤ |(r.direction.cross (t.c - t.a)).dot (t.b - t.a)| := by
    norm_num [parallelEpsilon, Vec3.dot_eq, r, t]
  have hinside : t.Contains (r.point (1 / 2)) := by
    refine ⟨1 / 2, 1 / 2, by norm_num, by norm_num, by norm_num, ?_⟩
    ext <;> norm_num [point, Triangle.pointAt, r, t]
  have hit := hcomplete (1 / 2) hsteep (by norm_num) hinside
  have hreverse : [t.c, t.b, t.a].Perm [t.a, t.b, t.c] := List.reverse_perm [t.a, t.b, t.c]
  exact ⟨hit, (hreorder ⟨t.c, t.b, t.a⟩ hreverse).trans hit⟩

end Ray

end Arbor
