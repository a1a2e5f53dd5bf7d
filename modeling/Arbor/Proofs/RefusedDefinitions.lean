import Arbor.Proofs.DefinedParameters

namespace Arbor.Store

variable {α : Type} [Scalar α]

def Holds (s : Store α) (name : String) : Setting α → Prop
  | .integer n => s.integers.Holds name n
  | .double x => s.doubles.Holds name x

/-- A parameter has been given a value, and nothing else has changed. -/
def Given (s : Store α) (name : String) (v : Setting α) (s' : Store α) : Prop :=
  match v with
  | .integer n => s'.integer name = .ok n ∧ s'.doubles = s.doubles ∧
      Rows.Written [s.integers.assigned name n] s.integers s'.integers
  | .double x => s'.double name = .ok x ∧ s'.integers = s.integers ∧
      Rows.Written [s.doubles.assigned name x] s.doubles s'.doubles

theorem assign_eq_self_iff {s : Store α} {name : String} {v : Setting α} :
    s.assign name v = s ↔ s.Holds name v := by
  obtain ⟨doubles, integers⟩ := s
  cases v with
  | integer n =>
      rw [assign, setInteger, mk.injEq, Holds, ← Rows.assign_eq_self_iff]
      exact and_iff_right rfl
  | double x =>
      rw [assign, setDouble, mk.injEq, Holds, ← Rows.assign_eq_self_iff]
      exact and_iff_left rfl

theorem given_assign (s : Store α) (name : String) (v : Setting α) :
    s.Given name v (s.assign name v) := by
  have hfind {ν : Type} [Ranged ν] (rows : Rows ν) (v : ν) :
      (rows.assign name v).find? name = some (rows.assigned name v) := by
    rw [Rows.assign_eq_put, Rows.find?_put, if_pos (rows.name_assigned name v)]
  have hvalue {ν : Type} [Ranged ν] (rows : Rows ν) (v : ν) : (rows.assigned name v).value = v :=
    congrArg Parameter.value (rows.assigned_eq name v)
  cases v with
  | integer n =>
      refine ⟨?_, rfl, ?_⟩
      · rw [integer, findInteger, assign, setInteger, hfind]
        exact congrArg Except.ok (hvalue s.integers n)
      · rw [assign, setInteger, Rows.assign_eq_put]
        exact Rows.written_putAll s.integers [_]
  | double x =>
      refine ⟨?_, rfl, ?_⟩
      · rw [double, findDouble, assign, setDouble, hfind]
        exact congrArg Except.ok (hvalue s.doubles x)
      · rw [assign, setDouble, Rows.assign_eq_put]
        exact Rows.written_putAll s.doubles [_]

/-- Definitions are refused for their bounds alone, and a refused one has given its value to the
parameter, with a range that is widened for it or, under a new name, holds nothing else. Entries
with a fractional bound are refused before that. So the store is as it was exactly where it held the
value. -/
theorem definitions_refused (s : Store α) (name : String) :
    (∀ v lo hi : α, (defineDouble name v lo hi).on s =
      (.error (.invertedRange name lo hi), s.assign name (.double v)) ↔ ¬ lo ≤ hi) ∧
    (∀ v lo hi : Int64, (defineInteger name v lo hi).on s =
        (.error (.invertedRange name (ofInteger lo) (ofInteger hi)), s.assign name (.integer v)) ↔
      ¬ (ofInteger lo : α) ≤ ofInteger hi) ∧
    (∀ (e : Entry α) fault s', e.apply.on s = (.error fault, s') →
      fault = .fractionalBound e.name ∧ s' = s ∨
      (fault = .emptyInterval ∨ ∃ lo hi, ¬ lo ≤ hi ∧ fault = .invertedRange e.name lo hi) ∧
        s' = s.assign e.name e.value) ∧
    (∀ v, s.Given name v (s.assign name v)) ∧
    ∀ v, s.assign name v = s ↔ s.Holds name v := by
  refine ⟨fun v lo hi => ?_, fun v lo hi => ?_, fun e fault s' happlied => ?_,
    s.given_assign name, fun v => assign_eq_self_iff⟩
  · rw [on_defineDouble]
    split
    next h => exact iff_of_false nofun (not_not_intro h)
    next h => exact iff_of_true rfl h
  · rw [defineInteger_spec]
    split
    next h =>
      refine iff_of_false ?_ (not_not_intro h)
      split
      · exact nofun
      · exact nofun
    next h => exact iff_of_true rfl h
  · obtain ⟨-, happly⟩ | happly | ⟨_, hfault, happly⟩ := e.apply_cases
    · rw [happly] at happlied
      cases happlied
    · rw [happly] at happlied
      cases happlied
      exact .inl ⟨rfl, rfl⟩
    · rw [happly] at happlied
      cases happlied
      exact .inr ⟨hfault, rfl⟩

/-- A new name stays in the store after its definition has been refused. -/
theorem kept_of_refused : ∃ s', (defineDouble "x" (5 : Float) 2 1).on empty =
    (.error (.invertedRange "x" 2 1), s') ∧ s'.double "x" = .ok 5 ∧ s' ≠ empty := by
  refine ⟨⟨[⟨"x", 5, 5, 5⟩], []⟩, ?_, rfl, nofun⟩
  decide +kernel

end Arbor.Store
