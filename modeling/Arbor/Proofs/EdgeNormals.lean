import Arbor.Proofs.InertTriangles
import Arbor.Proofs.RealVectors
import Arbor.Proofs.WoundEdges
import Mathlib.LinearAlgebra.AffineSpace.FiniteDimensional

namespace Arbor

namespace Vec3

variable {n v w : Vec3 ℝ} {a : ℝ}

theorem normalizeOrZero_mul (hn : n.dot n = 1) (ha : 0 < a) : (n * a).normalizeOrZero = n := by
  have hlength : (n * a).length = a := by rw [length_mul n ha.le, length_eq_one.mpr hn, one_mul]
  have hne : n * a ≠ 0 := by
    intro hzero
    rw [hzero] at hlength
    exact ha.ne (Mesh.length_zero.symm.trans hlength)
  rw [normalizeOrZero, normalize?_eq hne, hlength, Option.getD_some]
  ext <;> simp only [x_mul, y_mul, z_mul] <;> field_simp

theorem exists_direction (h : v ≠ 0) :
    ∃ (e : Vec3 ℝ) (l : ℝ), e.dot e = 1 ∧ 0 < l ∧ v = e * l := by
  have hne := (length_pos h).ne'
  refine ⟨v.normalizeOrZero, v.length, dot_normalizeOrZero h, length_pos h, ?_⟩
  rw [normalizeOrZero, normalize?_eq h, Option.getD_some]
  ext <;> simp only [x_mul, y_mul, z_mul] <;> field_simp

theorem ne_zero_of_normalizeOrZero (hn : n.dot n = 1) (h : v.normalizeOrZero = n) : v ≠ 0 := by
  rintro rfl
  exact ne_zero_of_unit hn (h.symm.trans Mesh.normalizeOrZero_zero)

theorem eq_mul_of_normalizeOrZero (hn : n.dot n = 1) (h : v.normalizeOrZero = n) :
    ∃ l : ℝ, 0 < l ∧ v = n * l := by
  obtain ⟨e, l, he, hl, rfl⟩ := exists_direction (ne_zero_of_normalizeOrZero hn h)
  exact ⟨l, hl, by rw [← h, normalizeOrZero_mul he hl]⟩

theorem neg_neg_vector (v : Vec3 ℝ) : -(-v) = v := by ext <;> simp

theorem dot_neg (v w : Vec3 ℝ) : v.dot (-w) = -v.dot w := by
  simp only [dot_eq, x_neg, y_neg, z_neg]
  ring

theorem neg_dot_neg (v w : Vec3 ℝ) : (-v).dot (-w) = v.dot w := by simp [dot_eq]

theorem normalizeOrZero_neg (v : Vec3 ℝ) : (-v).normalizeOrZero = -v.normalizeOrZero := by
  have hmul (w : Vec3 ℝ) (l : ℝ) : -(w * l) = -w * l := by ext <;> simp
  by_cases hv : v = 0
  · have hneg : -(0 : Vec3 ℝ) = 0 := by ext <;> simp
    rw [hv, hneg, Mesh.normalizeOrZero_zero, hneg]
  · obtain ⟨e, l, he, hl, rfl⟩ := exists_direction hv
    rw [hmul, normalizeOrZero_mul ((neg_dot_neg e e).trans he) hl, normalizeOrZero_mul he hl]

theorem normal_eq {t : Triangle ℝ} (hn : n.dot n = 1) (ha : 0 < a)
    (h : (t.c - t.b).cross (t.a - t.b) = n * a) : t.normal = n :=
  (congrArg normalizeOrZero h).trans (normalizeOrZero_mul hn ha)

theorem cross_corners (a b c : Vec3 ℝ) : (c - b).cross (a - b) = (b - a).cross (c - a) := by
  ext <;> simp only [x_cross, y_cross, z_cross, x_sub, y_sub, z_sub] <;> ring

noncomputable def outward (n d : Vec3 ℝ) : Vec3 ℝ := d.normalizeOrZero.cross n

theorem outward_dot_normal (n d : Vec3 ℝ) : (outward n d).dot n = 0 := by
  simp only [outward, dot_eq, x_cross, y_cross, z_cross]
  ring

theorem outward_dot_side (n d : Vec3 ℝ) : (outward n d).dot d = 0 := by
  by_cases hd : d = 0
  · rw [hd]
    simp [dot_eq]
  · obtain ⟨e, l, he, hl, rfl⟩ := exists_direction hd
    rw [outward, normalizeOrZero_mul he hl]
    simp only [dot_eq, x_cross, y_cross, z_cross, x_mul, y_mul, z_mul]
    ring

theorem cross_normalizeOrZero (n d : Vec3 ℝ) : n.cross d.normalizeOrZero = -outward n d := by
  ext <;> simp [outward]

theorem outward_mul {e : Vec3 ℝ} (he : e.dot e = 1) (ha : 0 < a) (n : Vec3 ℝ) :
    outward n (e * a) = e.cross n := by
  rw [outward, normalizeOrZero_mul he ha]

theorem cross_normal {d : Vec3 ℝ} (hd : d ≠ 0) (n : Vec3 ℝ) :
    ∃ l : ℝ, 0 < l ∧ d.cross n = outward n d * l := by
  obtain ⟨e, l, he, hl, rfl⟩ := exists_direction hd
  refine ⟨l, hl, ?_⟩
  rw [outward_mul he hl]
  ext <;> simp <;> ring

section Corner

variable {d u : Vec3 ℝ} (hn : n.dot n = 1) (h : (d.cross u).normalizeOrZero = n)

include hn h

theorem ne_zero_of_cross : d ≠ 0 ∧ u ≠ 0 := by
  have hcross := ne_zero_of_normalizeOrZero hn h
  constructor
  all_goals
    rintro rfl
    exact hcross (by ext <;> simp)

theorem dot_normal_of_cross : d.dot n = 0 := by
  obtain ⟨l, hl, hcross⟩ := eq_mul_of_normalizeOrZero hn h
  have hzero : d.dot n * l = 0 := by
    calc d.dot n * l = d.dot (n * l) := by simp only [dot_eq, x_mul, y_mul, z_mul]; ring
      _ = d.dot (d.cross u) := by rw [hcross]
      _ = 0 := by simp only [dot_eq, x_cross, y_cross, z_cross]; ring
  exact (mul_eq_zero.mp hzero).resolve_right hl.ne'

theorem outward_unit : (outward n d).dot (outward n d) = 1 := by
  obtain ⟨e, l, he, hl, rfl⟩ := exists_direction (ne_zero_of_cross hn h).1
  have hperp : e.dot n = 0 := by
    have hmul : e.dot n * l = (e * l).dot n := by
      simp only [dot_eq, x_mul, y_mul, z_mul]
      ring
    exact (mul_eq_zero.mp (hmul.trans (dot_normal_of_cross hn h))).resolve_right hl.ne'
  rw [outward_mul he hl]
  simp only [dot_eq, x_cross, y_cross, z_cross] at hn he hperp ⊢
  linear_combination (n.x * n.x + n.y * n.y + n.z * n.z) * he + hn -
    (e.x * n.x + e.y * n.y + e.z * n.z) * hperp

theorem dot_outward_neg : u.dot (outward n d) < 0 := by
  obtain ⟨e, l, he, hl, rfl⟩ := exists_direction (ne_zero_of_cross hn h).1
  obtain ⟨r, hr, hcross⟩ := eq_mul_of_normalizeOrZero hn h
  have hx := congrArg Vec3.x hcross
  have hy := congrArg Vec3.y hcross
  have hz := congrArg Vec3.z hcross
  simp only [x_cross, y_cross, z_cross, x_mul, y_mul, z_mul] at hx hy hz
  have hproduct : u.dot (e.cross n) * l = -r := by
    simp only [dot_eq, x_cross, y_cross, z_cross] at hn ⊢
    linear_combination -(n.x * hx + n.y * hy + n.z * hz) - r * hn
  rw [outward_mul he hl]
  refine neg_of_mul_neg_left ?_ hl.le
  rw [hproduct]
  exact neg_lt_zero.mpr hr

theorem direction_dot_outward : u.normalizeOrZero.dot (outward n d) < 0 := by
  have hneg := dot_outward_neg hn h
  obtain ⟨e, l, he, hl, rfl⟩ := exists_direction (ne_zero_of_cross hn h).2
  have hmul : e.dot (outward n d) * l = (e * l).dot (outward n d) := by
    simp only [dot_eq, x_mul, y_mul, z_mul]
    ring
  rw [normalizeOrZero_mul he hl]
  exact neg_of_mul_neg_left (hmul ▸ hneg) hl.le

end Corner

section Line

variable {a b c d p : Vec3 ℝ}

theorem euclidean_mul (d : Vec3 ℝ) (r : ℝ) : (d * r).euclidean = r • d.euclidean := by
  ext i
  fin_cases i <;> exact mul_comm _ _

theorem eq_mul_of_cross (hd : d ≠ 0) (h : d.cross p = 0) : ∃ r : ℝ, p = d * r := by
  have hne : d.dot d ≠ 0 := by
    rw [← lengthSq, ← length_sq]
    exact pow_ne_zero 2 (length_pos hd).ne'
  have hx := congrArg Vec3.x h
  have hy := congrArg Vec3.y h
  have hz := congrArg Vec3.z h
  simp only [x_cross, y_cross, z_cross, x_zero, y_zero, z_zero] at hx hy hz
  refine ⟨d.dot p / d.dot d, ?_⟩
  ext <;> simp only [x_mul, y_mul, z_mul] <;> field_simp <;> simp only [dot_eq]
  · linear_combination d.z * hy - d.y * hz
  · linear_combination d.x * hz - d.z * hx
  · linear_combination d.y * hx - d.x * hy

theorem cross_eq_zero_iff : (b - a).cross (c - a) = 0 ↔
    Collinear ℝ {a.euclidean, b.euclidean, c.euclidean} := by
  rw [collinear_iff_of_mem (Set.mem_insert _ _)]
  simp only [Set.forall_mem_insert, Set.mem_singleton_iff, forall_eq, vadd_eq_add]
  constructor
  · intro h
    by_cases hd : b - a = 0
    · have hab : b.euclidean = a.euclidean := by
        rw [← sub_eq_zero, ← euclidean_sub, hd]
        ext i
        fin_cases i <;> rfl
      exact ⟨c.euclidean - a.euclidean, ⟨0, by simp⟩, ⟨0, by simp [hab]⟩, ⟨1, by simp⟩⟩
    · obtain ⟨r, hr⟩ := eq_mul_of_cross hd h
      refine ⟨b.euclidean - a.euclidean, ⟨0, by simp⟩, ⟨1, by simp⟩, r, ?_⟩
      rw [← sub_eq_iff_eq_add, ← euclidean_sub, hr, euclidean_mul, euclidean_sub]
  · rintro ⟨v, -, ⟨r, hb⟩, s, hc⟩
    have hparallel {p : Vec3 ℝ} {r : ℝ} (hp : p.euclidean = r • v + a.euclidean) :
        p - a = (⟨v 0, v 1, v 2⟩ : Vec3 ℝ) * r := by
      have hcoordinate (i : Fin 3) : p.euclidean i = r * v i + a.euclidean i :=
        congrFun (congrArg WithLp.ofLp hp) i
      ext
      · exact sub_eq_of_eq_add ((hcoordinate 0).trans (by rw [mul_comm]; rfl))
      · exact sub_eq_of_eq_add ((hcoordinate 1).trans (by rw [mul_comm]; rfl))
      · exact sub_eq_of_eq_add ((hcoordinate 2).trans (by rw [mul_comm]; rfl))
    rw [hparallel hb, hparallel hc]
    ext <;> simp <;> ring

end Line

end Vec3

namespace Triangle

variable {t : Triangle ℝ}

theorem normal_eq_cross (t : Triangle ℝ) :
    t.normal = ((t.b - t.a).cross (t.c - t.a)).normalizeOrZero :=
  congrArg Vec3.normalizeOrZero (Vec3.cross_corners t.a t.b t.c)

theorem normal_rotate (a b c : Vec3 ℝ) :
    (⟨b, c, a⟩ : Triangle ℝ).normal = (⟨a, b, c⟩ : Triangle ℝ).normal :=
  normal_eq_cross _

theorem normal_swap (a b c : Vec3 ℝ) :
    (⟨b, a, c⟩ : Triangle ℝ).normal = -(⟨a, b, c⟩ : Triangle ℝ).normal := by
  rw [normal_eq_cross, normal_eq_cross, ← Vec3.normalizeOrZero_neg]
  congr 1
  ext <;> simp <;> ring

theorem unit_normal_iff : t.normal.dot t.normal = 1 ↔
    ¬ Collinear ℝ {t.a.euclidean, t.b.euclidean, t.c.euclidean} := by
  rw [← Vec3.cross_eq_zero_iff, normal_eq_cross]
  constructor
  · exact fun hunit => Vec3.ne_zero_of_normalizeOrZero hunit rfl
  · exact Vec3.dot_normalizeOrZero

/-- The direction in the plane of a triangle that is perpendicular to its first side and points away
from its third corner. -/
noncomputable def away (t : Triangle ℝ) : Vec3 ℝ := Vec3.outward t.normal (t.b - t.a)

theorem away_dot_normal (t : Triangle ℝ) : t.away.dot t.normal = 0 := Vec3.outward_dot_normal _ _

theorem away_dot_side (t : Triangle ℝ) : t.away.dot (t.b - t.a) = 0 := Vec3.outward_dot_side _ _

theorem away_swap (a b c : Vec3 ℝ) :
    (⟨b, a, c⟩ : Triangle ℝ).away = (⟨a, b, c⟩ : Triangle ℝ).away := by
  have hside : a - b = -(b - a) := by ext <;> simp
  rw [away, away, normal_swap, hside, Vec3.outward, Vec3.outward, Vec3.normalizeOrZero_neg]
  ext <;> simp

section Unit

variable (h : t.normal.dot t.normal = 1)

include h

theorem away_unit : t.away.dot t.away = 1 := Vec3.outward_unit h t.normal_eq_cross.symm

theorem direction_dot_away : (t.c - t.a).normalizeOrZero.dot t.away < 0 :=
  Vec3.direction_dot_outward h t.normal_eq_cross.symm

theorem normal_cross_side :
    (t.normal.cross (t.b - t.a).normalizeOrZero).normalizeOrZero = -t.away := by
  have hinward : t.normal.cross (t.b - t.a).normalizeOrZero = -t.away :=
    Vec3.cross_normalizeOrZero _ _
  rw [hinward, Vec3.normalizeOrZero_neg, Vec3.normalizeOrZero_unit (away_unit h)]

theorem neg_normal_cross_side :
    ((-t.normal).cross (t.b - t.a).normalizeOrZero).normalizeOrZero = t.away := by
  have hneg : (-t.normal).cross (t.b - t.a).normalizeOrZero =
      -t.normal.cross (t.b - t.a).normalizeOrZero := by ext <;> simp <;> ring
  rw [hneg, Vec3.normalizeOrZero_neg, normal_cross_side h, Vec3.neg_neg_vector]

/-- One that points inwards is turned round, so the winding makes no difference. -/
theorem turned_candidate {k : Vec3 ℝ} (hk : k = t.normal ∨ k = -t.normal) :
    let candidate := (k.cross (t.b - t.a).normalizeOrZero).normalizeOrZero
    (if 0 ≤ (t.c - t.a).normalizeOrZero.dot candidate then -candidate else candidate) =
      t.away := by
  have hneg := direction_dot_away h
  rcases hk with rfl | rfl
  · dsimp only
    rw [normal_cross_side h, Vec3.dot_neg, if_pos (neg_nonneg.mpr hneg.le), Vec3.neg_neg_vector]
  · dsimp only
    rw [neg_normal_cross_side h, if_neg (not_le.mpr hneg)]

end Unit

end Triangle

namespace Mesh

variable {m : Mesh ℝ} {n : Vec3 ℝ} {e : VertexId × VertexId} {f v w u : Nat}

noncomputable def along (m : Mesh ℝ) (e : VertexId × VertexId) : Vec3 ℝ :=
  m.position e.2 - m.position e.1

noncomputable def triangleOver (m : Mesh ℝ) (v w u : VertexId) : Triangle ℝ :=
  ⟨m.position v, m.position w, m.position u⟩

theorem third_of_arrow (m : Mesh ℝ) {t : List VertexId} (he : e ∈ arrows t) : ∃ u ∈ t,
    (∀ x ∈ t, x ≠ e.1 → x ≠ e.2 → x = u) ∧ (t.Nodup → u ≠ e.1 ∧ u ≠ e.2) ∧
      (m.triangleOf? t).map Triangle.normal = some (m.triangleOver e.1 e.2 u).normal := by
  unfold arrows at he
  split at he
  next a b c =>
    simp only [List.mem_cons, List.not_mem_nil, or_false] at he
    rcases he with rfl | rfl | rfl
    · exact ⟨c, by simp, by simp +contextual, by simp +contextual [eq_comm], rfl⟩
    · refine ⟨a, by simp, by simp +contextual, by simp +contextual, ?_⟩
      exact congrArg some (Triangle.normal_rotate ..).symm
    · refine ⟨b, by simp, by simp +contextual, by simp +contextual [eq_comm], ?_⟩
      exact congrArg some (Triangle.normal_rotate ..)
  next => cases he

theorem nodup_of_unit (h : (m.triangleOver v w u).normal.dot (m.triangleOver v w u).normal = 1) :
    [v, w, u].Nodup := by
  have hne : (m.triangleOver v w u).normal ≠ 0 := Vec3.ne_zero_of_unit h
  have hvw : v ≠ w := by
    rintro rfl
    exact hne (normal_of_repeated (.inl rfl))
  have hwu : w ≠ u := by
    rintro rfl
    exact hne (normal_of_repeated (.inr (.inl rfl)))
  have huv : u ≠ v := by
    rintro rfl
    exact hne (normal_of_repeated (.inr (.inr rfl)))
  simp [hvw, hwu, huv.symm]

theorem third_ne (h : [v, w, u].Nodup) : v ≠ w ∧ u ≠ v ∧ u ≠ w := by
  simp only [List.nodup_cons, List.mem_cons, List.not_mem_nil, or_false, not_or] at h
  exact ⟨h.1.1, Ne.symm h.1.2, Ne.symm h.2.1⟩

theorem exists_third {t : List VertexId} (ht : t.length = 3) (hv : v ∈ t) (hw : w ∈ t)
    (hvw : v ≠ w) : ∃ u, t.Perm [v, w, u] := by
  have hmem : w ∈ t.erase v := (List.mem_erase_of_ne hvw.symm).mpr hw
  have hone : ((t.erase v).erase w).length = 1 := by
    rw [List.length_erase_of_mem hmem, List.length_erase_of_mem hv, ht]
  obtain ⟨u, hu⟩ := List.length_eq_one_iff.mp hone
  exact ⟨u, (List.perm_cons_erase hv).trans (.cons v (hu ▸ List.perm_cons_erase hmem))⟩

theorem perm_of_corners {t : List VertexId} (ht : t.length = 3) (hv : v ∈ t) (hw : w ∈ t)
    (hu : u ∈ t) (hnodup : [v, w, u].Nodup) : t.Perm [v, w, u] := by
  have hsubset : [v, w, u] ⊆ t := by simp [hv, hw, hu]
  exact ((List.subperm_of_subset hnodup hsubset).perm_of_length_le (Nat.le_of_eq ht)).symm

theorem faceNormal_eq_ok : m.faceNormal f = .ok n ↔
    (m.triangleOf? (m.corners f)).map Triangle.normal = some n := by
  unfold faceNormal triangle
  cases hget : m.faces[f]? with
  | none => simp [corners, hget, triangleOf?, Except.map]
  | some t =>
      rw [corners_eq hget]
      cases ht : m.triangleOf? t with
      | none => simp [ht, Except.map]
      | some t => simp [ht, Except.map]

theorem faceNormal_of_points {a b c : Vec3 ℝ} (h : (m.corners f).map m.position = [a, b, c]) :
    m.faceNormal f = .ok (⟨a, b, c⟩ : Triangle ℝ).normal :=
  faceNormal_eq_ok.mpr (congrArg (Option.map Triangle.normal) (triangleOf?_of_points h))

theorem third_of_face (hn : m.faceNormal f = .ok n) (he : e ∈ arrows (m.corners f)) :
    ∃ u ∈ m.corners f, (∀ x ∈ m.corners f, x ≠ e.1 → x ≠ e.2 → x = u) ∧
      ((m.corners f).Nodup → u ≠ e.1 ∧ u ≠ e.2) ∧ (m.triangleOver e.1 e.2 u).normal = n := by
  obtain ⟨u, hu, honly, hne, hnormal⟩ := third_of_arrow m he
  exact ⟨u, hu, honly, hne, Option.some.inj (hnormal.symm.trans (faceNormal_eq_ok.mp hn))⟩

theorem faceNormal_of_perm (hperm : (m.corners f).Perm [v, w, u]) (hnodup : [v, w, u].Nodup) :
    ∃ k, m.faceNormal f = .ok k ∧
      (k = (m.triangleOver v w u).normal ∨ k = -(m.triangleOver v w u).normal) := by
  have hmem (x : VertexId) (hx : x ∈ [v, w, u]) : x ∈ m.corners f := hperm.mem_iff.mpr hx
  obtain ⟨hvw, huv, huw⟩ := third_ne hnodup
  obtain ⟨k, hk⟩ := faceNormal_ok hperm.length_eq
  refine ⟨k, hk, ?_⟩
  rcases arrow_of_corners hperm.length_eq (hmem v (by simp)) (hmem w (by simp)) hvw with he | he
  · obtain ⟨x, -, honly, -, hnormal⟩ := third_of_face hk he
    obtain rfl := honly u (hmem u (by simp)) huv huw
    exact .inl hnormal.symm
  · obtain ⟨x, -, honly, -, hnormal⟩ := third_of_face hk he
    obtain rfl := honly u (hmem u (by simp)) huw huv
    exact .inr (hnormal.symm.trans (Triangle.normal_swap ..))

theorem unit_of_perm (hperm : (m.corners f).Perm [v, w, u]) (hnodup : [v, w, u].Nodup)
    (hn : m.faceNormal f = .ok n) (hunit : n.dot n = 1) :
    (m.triangleOver v w u).normal.dot (m.triangleOver v w u).normal = 1 := by
  obtain ⟨k, hk, hsign⟩ := faceNormal_of_perm hperm hnodup
  obtain rfl := Except.ok.inj (hn.symm.trans hk)
  rcases hsign with rfl | rfl
  · exact hunit
  · rwa [Vec3.neg_dot_neg] at hunit

theorem away_dot_faceNormal (hperm : (m.corners f).Perm [v, w, u]) (hnodup : [v, w, u].Nodup)
    (hn : m.faceNormal f = .ok n) : (m.triangleOver v w u).away.dot n = 0 := by
  obtain ⟨k, hk, hsign⟩ := faceNormal_of_perm hperm hnodup
  obtain rfl := Except.ok.inj (hn.symm.trans hk)
  rcases hsign with rfl | rfl
  · exact (m.triangleOver v w u).away_dot_normal
  · rw [Vec3.dot_neg, Triangle.away_dot_normal, neg_zero]

def commonFace? (m : Mesh ℝ) (v w : VertexId) : Option FaceId :=
  (m.containing v).find? fun f => (m.containing w).contains f

theorem mem_of_commonFace? (hm : m.Indexed) (hf : m.commonFace? v w = some f) :
    v ∈ m.corners f ∧ w ∈ m.corners f :=
  ⟨(hm.listed v f).mp (List.mem_of_find?_eq_some hf),
    (hm.listed w f).mp (List.contains_iff_mem.mp (List.find?_some hf))⟩

theorem commonFace?_of_only (hm : m.Indexed) (hv : v ∈ m.corners f) (hw : w ∈ m.corners f)
    (honly : ∀ g, v ∈ m.corners g → w ∈ m.corners g → g = f) : m.commonFace? v w = some f := by
  have hsome : (m.commonFace? v w).isSome := List.find?_isSome.mpr
    ⟨f, (hm.listed v f).mpr hv, List.contains_iff_mem.mpr ((hm.listed w f).mpr hw)⟩
  obtain ⟨g, hg⟩ := Option.isSome_iff_exists.mp hsome
  obtain ⟨hgv, hgw⟩ := mem_of_commonFace? hm hg
  rw [hg, honly g hgv hgw]

theorem edgeNormal_of_common (hm : m.Indexed) (hf : m.commonFace? v w = some f) {k : Vec3 ℝ}
    (hk : m.faceNormal f = .ok k) : m.edgeNormal v w =
      let candidate := (k.cross (m.position w - m.position v).normalizeOrZero).normalizeOrZero
      .ok (if (m.corners f).any (fun u => u != v && u != w &&
        0 ≤ (m.position u - m.position v).normalizeOrZero.dot candidate) then -candidate
          else candidate) := by
  obtain ⟨hv, hw⟩ := mem_of_commonFace? hm hf
  have hne : (m.containing v).isEmpty = false :=
    List.isEmpty_eq_false_iff.mpr (List.ne_nil_of_mem ((hm.listed v f).mpr hv))
  unfold commonFace? at hf
  unfold edgeNormal
  rw [requireVertex_eq_ok.mpr (hm.existing f v hv), requireVertex_eq_ok.mpr (hm.existing f w hw),
    hf, hne]
  dsimp only
  rw [hk]
  rfl

/-- Whichever way the face is wound, the normal of an edge points away from the third corner. -/
theorem edgeNormal_of_perm (hm : m.Indexed) (hf : m.commonFace? v w = some f)
    (hperm : (m.corners f).Perm [v, w, u])
    (hunit : (m.triangleOver v w u).normal.dot (m.triangleOver v w u).normal = 1) :
    m.edgeNormal v w = .ok (m.triangleOver v w u).away := by
  have hnodup := nodup_of_unit hunit
  obtain ⟨k, hk, hsign⟩ := faceNormal_of_perm hperm hnodup
  obtain ⟨-, huv, huw⟩ := third_ne hnodup
  have hother (p : VertexId → Bool) :
      (m.corners f).any (fun x => x != v && x != w && p x) = p u := by
    rw [hperm.any_eq]
    simp [huv, huw]
  rw [edgeNormal_of_common hm hf hk]
  simp only [hother, decide_eq_true_iff]
  exact congrArg Except.ok (Triangle.turned_candidate hunit hsign)

theorem edgeNormal_swap (hm : m.Indexed) (hf : m.commonFace? v w = some f)
    (honly : ∀ g, v ∈ m.corners g → w ∈ m.corners g → g = f)
    (hperm : (m.corners f).Perm [v, w, u])
    (hunit : (m.triangleOver v w u).normal.dot (m.triangleOver v w u).normal = 1) :
    m.edgeNormal w v = m.edgeNormal v w := by
  obtain ⟨hv, hw⟩ := mem_of_commonFace? hm hf
  have hback := commonFace?_of_only hm hw hv fun g hg hg' => honly g hg' hg
  have hunit' : (m.triangleOver w v u).normal.dot (m.triangleOver w v u).normal = 1 := by
    rw [triangleOver, Triangle.normal_swap, Vec3.neg_dot_neg]
    exact hunit
  rw [edgeNormal_of_perm hm hf hperm hunit,
    edgeNormal_of_perm hm hback (hperm.trans (.swap w v [u])) hunit']
  exact congrArg Except.ok (Triangle.away_swap ..)

def rewind (f : FaceId) (t : List VertexId) (m : Mesh ℝ) : Mesh ℝ :=
  { m with faces := m.faces.setIfInBounds f t }

theorem corners_rewind (hf : f < m.faces.size) (t : List VertexId) (g : FaceId) :
    (m.rewind f t).corners g = if g = f then t else m.corners g := by
  by_cases hg : g = f
  · simp [rewind, corners, hg, hf]
  · simp [rewind, corners, hg, Ne.symm hg]

theorem Indexed.rewind (hm : m.Indexed) (hf : f < m.faces.size) {t : List VertexId}
    (ht : t.Perm (m.corners f)) : (m.rewind f t).Indexed := by
  refine hm.congr (Nat.le_refl _) (fun _ => rfl) fun g v => ?_
  rw [corners_rewind hf]
  split
  next hg => rw [ht.mem_iff, hg]
  next => rfl

theorem invert_eq_rewind {a b c : VertexId} (hcorners : m.corners f = [a, b, c]) :
    m.invert f = .ok (m.rewind f [a, c, b]) := by
  have hlt : f < m.faces.size := lt_of_mem_corners (hcorners ▸ List.mem_cons_self)
  have hget : m.faces[f]? = some [a, b, c] := by
    rw [← hcorners, corners, Array.getElem?_eq_getElem hlt, Option.getD_some]
  rw [invert, hget]
  rfl

theorem edgeNormal_rewind (hm : m.Indexed) (hf : m.commonFace? v w = some f)
    (hperm : (m.corners f).Perm [v, w, u])
    (hunit : (m.triangleOver v w u).normal.dot (m.triangleOver v w u).normal = 1)
    {t : List VertexId} (ht : t.Perm (m.corners f)) :
    (m.rewind f t).edgeNormal v w = m.edgeNormal v w := by
  have hlt := lt_of_mem_corners (mem_of_commonFace? hm hf).1
  have hover : (m.rewind f t).triangleOver v w u = m.triangleOver v w u := rfl
  have hperm' : ((m.rewind f t).corners f).Perm [v, w, u] := by
    rw [corners_rewind hlt, if_pos rfl]
    exact ht.trans hperm
  rw [edgeNormal_of_perm hm hf hperm hunit]
  rw [← hover] at hunit ⊢
  exact edgeNormal_of_perm (hm.rewind hlt ht) hf hperm' hunit

/-- The normal of an edge is a unit vector in the plane of the first face along the edge. It is
perpendicular to the edge and points away from the third corner, however the face is wound, and from
whichever end the edge is seen if no other face has it. -/
theorem edgeNormal_points_away {a b c : VertexId} (hm : m.Indexed) (hvw : v ≠ w)
    (hf : m.commonFace? v w = some f) (hcorners : m.corners f = [a, b, c])
    (hspan : ¬ Collinear ℝ {(m.position a).euclidean, (m.position b).euclidean,
      (m.position c).euclidean}) :
    ∃ u n k, (m.corners f).Perm [v, w, u] ∧ u ≠ v ∧ u ≠ w ∧
      m.edgeNormal v w = .ok n ∧ n.dot n = 1 ∧ n.dot (m.position w - m.position v) = 0 ∧
      m.faceNormal f = .ok k ∧ k.dot k = 1 ∧ n.dot k = 0 ∧
      (m.position u - m.position v).normalizeOrZero.dot n < 0 ∧
      (∀ t : List VertexId, t.Perm (m.corners f) → (m.rewind f t).edgeNormal v w = .ok n) ∧
      (∃ m', m.invert f = .ok m' ∧ m'.edgeNormal v w = .ok n) ∧
      ((∀ g, v ∈ m.corners g → w ∈ m.corners g → g = f) → m.edgeNormal w v = .ok n) := by
  obtain ⟨hv, hw⟩ := mem_of_commonFace? hm hf
  have hlength : (m.corners f).length = 3 := congrArg List.length hcorners
  have hface : m.faceNormal f = .ok (m.triangleOver a b c).normal :=
    faceNormal_of_points (by rw [hcorners]; rfl)
  have hfaceUnit : (m.triangleOver a b c).normal.dot (m.triangleOver a b c).normal = 1 :=
    Triangle.unit_normal_iff.mpr hspan
  obtain ⟨u, hperm⟩ := exists_third hlength hv hw hvw
  have hnodup : [v, w, u].Nodup := hperm.nodup_iff.mp (hcorners ▸ nodup_of_unit hfaceUnit)
  have hunit := unit_of_perm hperm hnodup hface hfaceUnit
  have hnormal := edgeNormal_of_perm hm hf hperm hunit
  have hthird := Triangle.direction_dot_away hunit
  have hrewound (t : List VertexId) (ht : t.Perm (m.corners f)) :
      (m.rewind f t).edgeNormal v w = .ok (m.triangleOver v w u).away :=
    (edgeNormal_rewind hm hf hperm hunit ht).trans hnormal
  have hinverted : [a, c, b].Perm (m.corners f) := hcorners ▸ (List.Perm.swap b c []).cons a
  obtain ⟨-, huv, huw⟩ := third_ne hnodup
  exact ⟨u, (m.triangleOver v w u).away, (m.triangleOver a b c).normal, hperm, huv, huw, hnormal,
    Triangle.away_unit hunit, (m.triangleOver v w u).away_dot_side, hface, hfaceUnit,
    away_dot_faceNormal hperm hnodup hface, hthird, hrewound,
    ⟨_, invert_eq_rewind hcorners, hrewound _ hinverted⟩,
    fun honly => (edgeNormal_swap hm hf honly hperm hunit).trans hnormal⟩

theorem edgeNormal_points_away_unitTriangle :
    let m := ofPolygons Surface.unitTriangle
    m.commonFace? 0 1 = some 0 ∧ m.corners 0 = [0, 1, 2] ∧
      ∃ n k, m.edgeNormal 0 1 = .ok n ∧ m.edgeNormal 1 0 = .ok n ∧
        (m.rewind 0 [2, 1, 0]).edgeNormal 0 1 = .ok n ∧ n.dot n = 1 ∧
        n.dot (m.position 1 - m.position 0) = 0 ∧ m.faceNormal 0 = .ok k ∧ n.dot k = 0 := by
  intro m
  have hindexed : m.Indexed := (ofPolygons_faces (by simp [Surface.unitTriangle])).1
  have hspan : ¬ Collinear ℝ {(m.position 0).euclidean, (m.position 1).euclidean,
      (m.position 2).euclidean} := by
    have h0 : m.position 0 = ⟨0, 0, 0⟩ := rfl
    have h1 : m.position 1 = ⟨1, 0, 0⟩ := rfl
    have h2 : m.position 2 = ⟨0, 1, 0⟩ := rfl
    rw [← Vec3.cross_eq_zero_iff, h0, h1, h2]
    intro hzero
    simpa using congrArg Vec3.z hzero
  obtain ⟨-, n, k, -, -, -, hn, hunit, hside, hk, -, hplane, -, hrewound, -, hback⟩ :=
    edgeNormal_points_away hindexed (by decide : (0 : Nat) ≠ 1) rfl rfl hspan
  refine ⟨rfl, rfl, n, k, hn, hback fun g hg _ => ?_, hrewound _ ?_, hunit, hside, hk, hplane⟩
  · exact Nat.lt_one_iff.mp (lt_of_mem_corners hg)
  · decide

end Mesh

end Arbor
