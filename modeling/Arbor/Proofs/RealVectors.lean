import Mathlib.Analysis.InnerProductSpace.PiL2
import Arbor.Geometry.Vector
import Arbor.Scalar.Real

namespace Arbor

namespace Scalar

theorem ofNat_eq_cast (n : Nat) : (ofNat n : ℝ) = n := Int.cast_natCast n

theorem lesser_eq_min (a b : ℝ) : lesser a b = min a b := by
  have hself : (a == a) = true := decide_eq_true rfl
  rw [lesser, if_pos hself, min_comm, min_def]

theorem greater_eq_max (a b : ℝ) : greater a b = max a b := by
  have hself : (a == a) = true := decide_eq_true rfl
  rw [greater, if_pos hself, max_def]

/-- An operation that returns one of its arguments, the better one, picks the best of a list. -/
theorem foldl_picks (better : ℝ → ℝ → Prop) {pick : ℝ → ℝ → ℝ} (hrefl : ∀ a, better a a)
    (htrans : ∀ a b c, better a b → better b c → better a c)
    (hchoice : ∀ a b, pick a b = a ∨ pick a b = b) (hleft : ∀ a b, better (pick a b) a)
    (hright : ∀ a b, better (pick a b) b) (x : ℝ) (xs : List ℝ) :
    xs.foldl pick x ∈ x :: xs ∧ ∀ c ∈ x :: xs, better (xs.foldl pick x) c := by
  induction xs generalizing x with
  | nil => exact ⟨List.mem_cons_self, fun c hc => List.mem_singleton.mp hc ▸ hrefl x⟩
  | cons y ys ih =>
      obtain ⟨hmem, hbest⟩ := ih (pick x y)
      obtain ⟨hpick, hys⟩ := List.forall_mem_cons.mp hbest
      rw [List.foldl_cons]
      refine ⟨?_, List.forall_mem_cons.mpr ⟨?_, List.forall_mem_cons.mpr ⟨?_, hys⟩⟩⟩
      · rcases List.mem_cons.mp hmem with he | hlater
        · rcases hchoice x y with hx | hy
          · exact List.mem_cons.mpr (.inl (he.trans hx))
          · exact List.mem_cons_of_mem _ (List.mem_cons.mpr (.inl (he.trans hy)))
        · exact List.mem_cons_of_mem _ (List.mem_cons_of_mem _ hlater)
      · exact htrans _ _ _ hpick (hleft x y)
      · exact htrans _ _ _ hpick (hright x y)

theorem isLeast_least {xs : List ℝ} (h : xs ≠ []) : IsLeast {c | c ∈ xs} (least xs) := by
  have hnumbers : xs.filter (fun x => x == x) = xs :=
    List.filter_eq_self.mpr fun x _ => decide_eq_true rfl
  obtain ⟨x, xs, rfl⟩ := List.exists_cons_of_ne_nil h
  rw [least, hnumbers, funext fun a => funext (lesser_eq_min a)]
  exact foldl_picks (· ≤ ·) le_refl (fun _ _ _ => le_trans) min_choice min_le_left min_le_right
    x xs

theorem isGreatest_greatest (xs : List ℝ) : IsGreatest {c | c ∈ 0 :: xs} (greatest xs) := by
  rw [greatest, funext fun a => funext (greater_eq_max a)]
  exact foldl_picks (· ≥ ·) le_refl (fun _ _ _ h h' => h'.trans h) max_choice
    le_max_left le_max_right 0 xs

end Scalar

namespace Vec3

section Components

variable (v w : Vec3 ℝ) (a : ℝ)

theorem lengthSq_eq : v.lengthSq = v.x ^ 2 + v.y ^ 2 + v.z ^ 2 := by
  rw [lengthSq, dot_eq]
  ring

theorem sub_sub_sub (p q c : Vec3 ℝ) : (p - c) - (q - c) = p - q := by
  ext <;> simp

theorem dot_sub (u : Vec3 ℝ) : (v - w).dot u = v.dot u - w.dot u := by
  simp only [dot_eq, x_sub, y_sub, z_sub]
  ring

theorem dot_mul (b : ℝ) : (v * a).dot (w * b) = v.dot w * (a * b) := by
  simp only [dot_eq, x_mul, y_mul, z_mul]
  ring

end Components

noncomputable def euclidean (v : Vec3 ℝ) : EuclideanSpace ℝ (Fin 3) := !₂[v.x, v.y, v.z]

theorem euclidean_sub (v w : Vec3 ℝ) : (v - w).euclidean = v.euclidean - w.euclidean := by
  ext i
  fin_cases i <;> rfl

theorem inner_euclidean (v w : Vec3 ℝ) : inner ℝ v.euclidean w.euclidean = w.dot v := by
  simp only [euclidean, PiLp.inner_apply, Fin.sum_univ_three]
  rfl

theorem norm_euclidean (v : Vec3 ℝ) : ‖v.euclidean‖ = v.length := by
  rw [norm_eq_sqrt_real_inner, inner_euclidean]
  rfl

theorem abs_length_sub_length_le (v w : Vec3 ℝ) : |v.length - w.length| ≤ (v - w).length := by
  rw [← norm_euclidean, ← norm_euclidean, ← norm_euclidean, euclidean_sub]
  exact abs_norm_sub_norm_le _ _

theorem length_nonneg (v : Vec3 ℝ) : 0 ≤ v.length := Real.sqrt_nonneg _

theorem length_sq (v : Vec3 ℝ) : v.length ^ 2 = v.lengthSq := by
  rw [← norm_euclidean, ← real_inner_self_eq_norm_sq, inner_euclidean, lengthSq]

theorem length_eq {v : Vec3 ℝ} {r : ℝ} (hr : 0 ≤ r) (h : v.lengthSq = r ^ 2) : v.length = r := by
  rw [length, h]
  exact Real.sqrt_sq hr

theorem length_lt_iff {v : Vec3 ℝ} {r : ℝ} (hr : 0 < r) : v.length < r ↔ v.lengthSq < r ^ 2 :=
  Real.sqrt_lt' hr

theorem length_eq_one {v : Vec3 ℝ} : v.length = 1 ↔ v.dot v = 1 := Real.sqrt_eq_one

theorem length_mul (v : Vec3 ℝ) {a : ℝ} (h : 0 ≤ a) : (v * a).length = v.length * a := by
  refine length_eq (mul_nonneg v.length_nonneg h) ?_
  rw [mul_pow, length_sq, lengthSq, lengthSq, dot_mul, sq]

theorem length_pos {v : Vec3 ℝ} (h : v ≠ 0) : 0 < v.length := by
  rw [← norm_euclidean, norm_pos_iff]
  intro hzero
  apply h
  exact (Vec3.mk.injEq ..).mpr ⟨congrFun (congrArg WithLp.ofLp hzero) 0,
    congrFun (congrArg WithLp.ofLp hzero) 1, congrFun (congrArg WithLp.ofLp hzero) 2⟩

theorem normalize?_eq {v : Vec3 ℝ} (h : v ≠ 0) : v.normalize? = some (v * (1 / v.length)) := by
  have hpos : 0 < 1 / v.length := one_div_pos.mpr (length_pos h)
  have hfinite : ((1 / v.length - 1 / v.length : ℝ) == 0) = true := decide_eq_true (sub_self _)
  exact if_pos ⟨hpos, hfinite⟩

theorem dot_normalizeOrZero {v : Vec3 ℝ} (h : v ≠ 0) :
    v.normalizeOrZero.dot v.normalizeOrZero = 1 := by
  have hne := (length_pos h).ne'
  rw [normalizeOrZero, normalize?_eq h, Option.getD_some, dot_mul, ← lengthSq, ← length_sq]
  field_simp

theorem ne_zero_of_unit {n : Vec3 ℝ} (hn : n.dot n = 1) : n ≠ 0 := by
  rintro rfl
  simp [dot_eq] at hn

theorem normalizeOrZero_unit {n : Vec3 ℝ} (hn : n.dot n = 1) : n.normalizeOrZero = n := by
  rw [normalizeOrZero, normalize?_eq (ne_zero_of_unit hn), length_eq_one.mpr hn, Option.getD_some]
  ext <;> simp

end Vec3

end Arbor
