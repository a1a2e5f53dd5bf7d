import Arbor.Parameter.Config
import Arbor.Proofs.StoreEdits

namespace Arbor

/-- Everything that a store can be asked to do with its parameters. -/
inductive Operation (α : Type) where
  | setDouble (name : String) (v : α)
  | setInteger (name : String) (v : Int64)
  | setParameter (name : String) (v : Setting α)
  | setDoubleRange (name : String) (minimum maximum : α)
  | setIntegerRange (name : String) (minimum maximum : Int64)
  | defineDouble (name : String) (v minimum maximum : α)
  | defineInteger (name : String) (v minimum maximum : Int64)
  | randomizeParameter (seed : UInt64) (name : String)
  | randomize (seed : UInt64)

namespace Operation

def kind {α : Type} : Operation α → ParameterKind
  | setDouble .. | setParameter _ (.double _) | setDoubleRange .. | defineDouble .. => .double
  | setInteger .. | setParameter _ (.integer _) | setIntegerRange .. | defineInteger .. => .integer
  | randomizeParameter .. | randomize _ => .any

def range? {α : Type} : Operation α → Option (Int64 × Int64)
  | setIntegerRange _ minimum maximum | defineInteger _ _ minimum maximum =>
      some (minimum, maximum)
  | _ => none

variable {α : Type} [Scalar α]

def edit : Operation α → Edit α Unit
  | setDouble name v | setParameter name (.double v) => modify (Store.setDouble name v)
  | setInteger name v | setParameter name (.integer v) => modify (Store.setInteger name v)
  | setDoubleRange name minimum maximum => Store.setDoubleRange name minimum maximum
  | setIntegerRange name minimum maximum => Store.setIntegerRange name minimum maximum
  | defineDouble name v minimum maximum => Store.defineDouble name v minimum maximum
  | defineInteger name v minimum maximum => Store.defineInteger name v minimum maximum
  | randomizeParameter seed name => Store.randomizeParameter seed name
  | randomize seed => Store.randomize seed

/-- The store behind an operation, also behind one that has failed. -/
def after (s : Store α) (op : Operation α) : Store α := (op.edit.on s).2

theorem integers_of_kind {op : Operation α} (h : op.kind = .double) (s : Store α) :
    (op.after s).integers = s.integers := by
  cases op with
  | setDouble => rfl
  | setParameter name v =>
      cases v with
      | integer => cases h
      | double => rfl
  | setDoubleRange name minimum maximum =>
      exact (Store.setDoubleRange_spec name minimum maximum s).1
  | defineDouble name v minimum maximum =>
      exact (Store.setDoubleRange_spec name minimum maximum (s.setDouble name v)).1
  | setInteger | setIntegerRange | defineInteger | randomizeParameter | randomize => cases h

theorem doubles_of_kind {op : Operation α} (h : op.kind = .integer) (s : Store α) :
    (op.after s).doubles = s.doubles := by
  cases op with
  | setInteger => rfl
  | setParameter name v =>
      cases v with
      | integer => rfl
      | double => cases h
  | setIntegerRange name minimum maximum =>
      exact (Store.setIntegerRange_spec name minimum maximum s).1
  | defineInteger name v minimum maximum =>
      exact (Store.setIntegerRange_spec name minimum maximum (s.setInteger name v)).1
  | setDouble | setDoubleRange | defineDouble | randomizeParameter | randomize => cases h

theorem integers_change (op : Operation α) (s : Store α) :
    Rows.Change (fun lo hi => op.range? = some (lo, hi) ∧
      (Store.ofInteger lo : α) ≤ Store.ofInteger hi) s.integers (op.after s).integers := by
  cases op with
  | setInteger name v => exact .assign name v s.integers
  | setParameter name v =>
      cases v with
      | integer v => exact .assign name v s.integers
      | double => exact .keep s.integers
  | setIntegerRange name minimum maximum =>
      have hspec := (Store.setIntegerRange_spec name minimum maximum s).2
      exact .of_confine (hspec.imp_right fun ⟨hle, h⟩ => ⟨⟨rfl, hle⟩, h⟩)
  | defineInteger name v minimum maximum =>
      have hspec := (Store.setIntegerRange_spec name minimum maximum (s.setInteger name v)).2
      exact .of_define (hspec.imp_right fun ⟨hle, h⟩ => ⟨⟨rfl, hle⟩, h⟩)
  | randomizeParameter seed name =>
      exact .redraw _ _ (Store.randomizeParameter_spec seed name s).2.1
  | randomize seed => exact .redraw _ _ (Store.randomize_spec seed s).2.1
  | setDouble | setDoubleRange | defineDouble =>
      rw [integers_of_kind rfl]
      exact .keep s.integers

theorem doubles_change (op : Operation ℝ) (s : Store ℝ) :
    Rows.Change (fun lo hi => lo ≤ hi) s.doubles (op.after s).doubles := by
  cases op with
  | setDouble name v => exact .assign name v s.doubles
  | setParameter name v =>
      cases v with
      | integer => exact .keep s.doubles
      | double v => exact .assign name v s.doubles
  | setDoubleRange name minimum maximum =>
      exact .of_confine (Store.setDoubleRange_spec name minimum maximum s).2
  | defineDouble name v minimum maximum =>
      exact .of_define (Store.setDoubleRange_spec name minimum maximum (s.setDouble name v)).2
  | randomizeParameter seed name =>
      rw [after, edit]
      rcases (Store.randomizeParameter_spec seed name s).2.2 with h | ⟨p, g, hfind, h⟩
      · rw [h]
        exact .keep s.doubles
      · rw [h]
        exact .redraw _ _ (Rows.upsert_redrawn hfind (Store.drawDouble_redrawn p g))
  | randomize seed =>
      rw [after, edit]
      rcases (Store.randomize_spec seed s).2.2 with h | ⟨g, h⟩
      · rw [h]
        exact .keep s.doubles
      · rw [h]
        exact .redraw _ _ (Store.drawDoubles_redrawn s.doubles g)
  | setInteger | setIntegerRange | defineInteger =>
      rw [doubles_of_kind rfl]
      exact .keep s.doubles

end Operation

namespace Store

structure Sound (s : Store ℝ) : Prop where
  doubleNames : s.doubles.names.Nodup
  integerNames : s.integers.names.Nodup
  doubles : ∀ p ∈ s.doubles, p.Within
  integers : ∀ p ∈ s.integers, p.Within

theorem ofInteger_le (lo hi : Int64) : (ofInteger lo : ℝ) ≤ ofInteger hi ↔ lo ≤ hi :=
  Int.cast_le.trans Int64.le_iff_toInt_le.symm

theorem Sound.empty : (Store.empty : Store ℝ).Sound where
  doubleNames := List.nodup_nil
  integerNames := List.nodup_nil
  doubles := List.forall_mem_nil _
  integers := List.forall_mem_nil _

theorem Sound.after {s : Store ℝ} (h : s.Sound) (op : Operation ℝ) : (op.after s).Sound where
  doubleNames := (op.doubles_change s).nodup_names h.doubleNames
  integerNames := (op.integers_change s).nodup_names h.integerNames
  doubles := (op.doubles_change s).within (fun _ _ => id) h.doubles
  integers := (op.integers_change s).within (fun lo hi h => (ofInteger_le lo hi).mp h.2) h.integers

/-- Names stay distinct and values within their ranges in whatever a store is asked to do, also
where that fails. A step brings no more than one new name, and nothing to parameters that it is not
for. -/
theorem ranges_of_run (ops : List (Operation ℝ)) (op : Operation ℝ) :
    let s := ops.foldl (fun s op => op.after s) Store.empty
    let s' := (op.edit.on s).2
    s.Sound ∧ s'.Sound ∧
      (s'.doubles.names = s.doubles.names ∨
        ∃ name ∉ s.doubles.names, s'.doubles.names = s.doubles.names ++ [name]) ∧
      (s'.integers.names = s.integers.names ∨
        ∃ name ∉ s.integers.names, s'.integers.names = s.integers.names ++ [name]) ∧
      (op.kind = .double → s'.integers = s.integers) ∧
      (op.kind = .integer → s'.doubles = s.doubles) := by
  intro s s'
  have hs : s.Sound := by
    refine List.foldlRecOn (motive := Sound) ops _ Sound.empty fun s h op _ => ?_
    exact h.after op
  refine ⟨hs, hs.after op, ?_, ?_, fun h => ?_, fun h => ?_⟩
  · exact (op.doubles_change s).names
  · exact (op.integers_change s).names
  · exact Operation.integers_of_kind h s
  · exact Operation.doubles_of_kind h s

end Store

end Arbor
