import Arbor.Proofs.NonfiniteDoubles
import Arbor.Proofs.RoundedIntegers
import Arbor.Proofs.StoreEdits

namespace Arbor

open Float.Model Float.Model.UnpackedFloat

namespace Store

theorem not_nan_lt (y : Float) :
    ¬ (Scalar.abs (Float.ofModel (Float.Model.pack .notANumber)) : Float) < y := by
  intro h
  cases h

theorem almostEqual_self (x : Float) : almostEqual x x = x.isFinite := by
  rw [almostEqual, double_sub_self]
  cases x.isFinite with
  | true =>
      have htiny : (Scalar.abs (Float.ofModel (Float.Model.pack (.zero .positive))) : Float) <
          2.2250738585072014e-308 := by decide +kernel
      simp only [if_true, decide_eq_true htiny, Bool.or_true]
  | false =>
      simp only [Bool.false_eq_true, if_false, decide_eq_false (not_nan_lt _), Bool.or_false]

end Store

structure Parameter.Finite (p : Parameter Float) : Prop where
  value : p.value.isFinite = true
  minimum : p.minimum.isFinite = true
  maximum : p.maximum.isFinite = true

namespace Store

def Finite (s : Store Float) : Prop := ∀ p ∈ s.doubles, p.Finite

theorem similar_self (p : Parameter Float) : similar p p = true ↔ p.Finite := by
  rw [similar, almostEqual_self, almostEqual_self, almostEqual_self, beq_self_eq_true,
    Bool.true_and, Bool.and_eq_true, Bool.and_eq_true]
  exact ⟨fun ⟨⟨hvalue, hminimum⟩, hmaximum⟩ => ⟨hvalue, hminimum, hmaximum⟩,
    fun h => ⟨⟨h.value, h.minimum⟩, h.maximum⟩⟩

theorem same_self (s : Store Float) : s.same s = true ↔ s.Finite := by
  have hzip : s.doubles.zip s.doubles = s.doubles.map fun p => (p, p) := by
    rw [List.zip_eq_zipWith, List.zipWith_self]
  rw [same, beq_self_eq_true, beq_self_eq_true, Bool.true_and, Bool.and_true, hzip, List.all_map,
    List.all_eq_true]
  exact forall₂_congr fun p _ => similar_self p

/-- Of a range that is wider than all doubles, no finite double is drawn. -/
theorem drawDouble_not_finite {p : Parameter Float} (h : (p.maximum - p.minimum).isFinite = false)
    (g : Generator) : (drawDouble p g).1.value.isFinite = false :=
  have hscaled : ((g.uniform (α := Float)).1 * (p.maximum - p.minimum)).isFinite = false :=
    pack_not_finite (mul_not_finite h)
  pack_not_finite (add_not_finite (.inr hscaled))

section

variable {α : Type} [Scalar α] {rows : Rows α} {g : Generator}

theorem exists_of_mem_drawDoubles {q : Parameter α} (hq : q ∈ (drawDoubles rows g).1) :
    ∃ p ∈ rows, ∃ g, (drawDouble p g).1 = q := by
  induction rows generalizing g with
  | nil => cases hq
  | cons p ps ih =>
      rcases List.mem_cons.mp hq with rfl | hq
      · exact ⟨p, List.mem_cons_self, g, rfl⟩
      · obtain ⟨p', hp', hdrawn⟩ := ih hq
        exact ⟨p', List.mem_cons_of_mem _ hp', hdrawn⟩

theorem exists_drawn {p : Parameter α} (hp : p ∈ rows) :
    ∃ g', (drawDouble p g').1 ∈ (drawDoubles rows g).1 := by
  induction rows generalizing g with
  | nil => cases hp
  | cons p' ps ih =>
      rcases List.mem_cons.mp hp with rfl | hp
      · exact ⟨g, List.mem_cons_self⟩
      · obtain ⟨g', hmem⟩ := ih hp
        exact ⟨g', List.mem_cons_of_mem _ hmem⟩

end

theorem same_randomize {s : Store Float} (hs : s.Finite) (seed : UInt64) :
    let drawn := ((randomize seed).on s).2
    drawn.same drawn = true ↔ ∀ p ∈ drawn.doubles, p.value.isFinite = true := by
  intro drawn
  rw [same_self]
  refine ⟨fun h p hp => (h p hp).value, fun h p hp => ?_⟩
  have hvalue := h p hp
  rcases (randomize_spec seed s).2.2 with hkept | ⟨g, hdrawn⟩
  · exact hs p (hkept ▸ hp)
  · obtain ⟨p', hp', g', rfl⟩ := exists_of_mem_drawDoubles (hdrawn ▸ hp)
    exact ⟨hvalue, (hs p' hp').minimum, (hs p' hp').maximum⟩

/-- A store with a range that is wider than all doubles differs from itself once it is drawn. -/
theorem not_same_randomize {s : Store Float} {p : Parameter Float} (hp : p ∈ s.doubles)
    (hwide : (p.maximum - p.minimum).isFinite = false) {seed : UInt64} {drawn : Store Float}
    (hdrawn : (randomize seed).on s = (.ok (), drawn)) : drawn.same drawn = false := by
  rw [← Bool.not_eq_true, same_self]
  intro hfinite
  rw [on_randomize] at hdrawn
  dsimp only at hdrawn
  split at hdrawn
  next =>
    cases hdrawn
    obtain ⟨g, hmem⟩ := exists_drawn hp
    have hvalue := (hfinite _ hmem).value
    rw [drawDouble_not_finite hwide] at hvalue
    cases hvalue
  next => cases hdrawn

end Store

end Arbor
