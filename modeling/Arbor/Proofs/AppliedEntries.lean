import Arbor.Proofs.ComparedNumbers
import Arbor.Proofs.DefinedParameters

namespace Arbor

variable {α : Type} [Scalar α]

namespace Source

open Entry

theorem filterMap_cons_toList {ι β : Type} (f : ι → Option β) (x : ι) (xs : List ι) :
    (x :: xs).filterMap f = (f x).toList ++ xs.filterMap f := by
  rw [List.filterMap_cons]
  cases f x <;> rfl

theorem on_applyAll_cons (e : Entry α) (es : List (Entry α)) (s : Store α) :
    (applyAll (e :: es)).on s = match e.apply.on s with
      | (.ok _, s) => (applyAll es).on s
      | (.error fault, s) => (.error fault, s) := by
  rw [applyAll, Edit.on, run_run_bind, Edit.on]
  rcases e.apply.run.run s with ⟨_ | _, s'⟩ <;> rfl

theorem applyAll_ok {es : List (Entry α)} {s s' : Store α}
    (h : (applyAll es).on s = (.ok (), s')) :
    (∀ e ∈ es, e.double?.isSome = !e.integer?.isSome) ∧
    ∀ t, (applyAll es).on t = (.ok (), t.write (es.filterMap double?) (es.filterMap integer?)) := by
  induction es generalizing s with
  | nil => exact ⟨nofun, fun t => rfl⟩
  | cons e es ih =>
      rw [on_applyAll_cons] at h
      obtain ⟨hkind, happly⟩ | happly | ⟨fault, -, happly⟩ := e.apply_cases
      · rw [happly] at h
        obtain ⟨hkinds, hrest⟩ := ih h
        refine ⟨List.forall_mem_cons.mpr ⟨hkind, hkinds⟩, fun t => ?_⟩
        rw [on_applyAll_cons, happly, filterMap_cons_toList, filterMap_cons_toList,
          ← Store.write_write]
        exact hrest _
      · rw [happly] at h
        cases h
      · rw [happly] at h
        cases h

theorem on_applyTo (source : Source α) (species : String) (s : Store α) :
    (source.applyTo species).on s =
      match (applyAll ((source species).getD [])).on s with
      | (.ok _, s) => (.ok ((source species).getD []).length, s)
      | (.error fault, s) => (.error fault, s) := by
  unfold applyTo
  cases source species with
  | none => rfl
  | some es =>
      dsimp only [Option.getD_some]
      rw [Edit.on, run_run_bind, Edit.on]
      rcases (applyAll es).run.run s with ⟨_ | _, s'⟩ <;> rfl

theorem applyTo_ok {source : Source α} {species : String} {s s' : Store α} {count : Nat}
    (h : (source.applyTo species).on s = (.ok count, s')) :
    let es := (source species).getD []
    (∀ e ∈ es, e.double?.isSome = !e.integer?.isSome) ∧
    ∀ t, (source.applyTo species).on t =
      (.ok es.length, t.write (es.filterMap double?) (es.filterMap integer?)) := by
  rw [on_applyTo] at h
  rcases hrun : (applyAll ((source species).getD [])).on s with ⟨fault | _, s''⟩
  · rw [hrun] at h
    cases h
  · obtain ⟨hkinds, happly⟩ := applyAll_ok hrun
    exact ⟨hkinds, fun t => by rw [on_applyTo, happly]⟩

theorem value_of_confines [ComparedScalar α] {name : String} {v lo hi : α} {p : Parameter α}
    (h : p.Confines name v lo hi) (hlo : lo ≤ v) (hhi : v ≤ hi) : p.value = v :=
  h.within (ComparedScalar.not_lt hlo) (ComparedScalar.not_lt hhi)

/-- Applying the entries of a species to a store: every entry is for a double or for an integer, and
in both kinds the last one of a name counts, with its bounds and with its value, which is moved only
if it lies outside. New names come last, in the order in which they are first mentioned. The entries
are accepted whatever a store holds, and applying them again changes nothing. -/
theorem entries_of_applyTo {source : Source α} {species : String} {s s' : Store α} {count : Nat}
    (h : (source.applyTo species).on s = (.ok count, s')) :
    let es := (source species).getD []
    count = es.length ∧ (∀ e ∈ es, e.double?.isSome = !e.integer?.isSome) ∧
    (∀ e ∈ es, e.Defines e.double? e.integer?) ∧
    Rows.Written (es.filterMap double?) s.doubles s'.doubles ∧
    Rows.Written (es.filterMap integer?) s.integers s'.integers ∧
    (source.applyTo species).on s' = (.ok count, s') ∧
    ∀ t, ((source.applyTo species).on t).1 = .ok count := by
  intro es
  obtain ⟨hkinds, happly⟩ := applyTo_ok h
  rw [happly] at h
  cases h
  refine ⟨rfl, hkinds, fun e he => e.defines (hkinds e he), Rows.written_putAll _ _,
    Rows.written_putAll _ _, ?_, fun t => ?_⟩
  · rw [happly, Store.write_again]
  · rw [happly]

/-- A name in both kinds and twice among the doubles, one double that is new, a bound that is
written as an integer, and values below, above and inside their bounds. -/
theorem entries_of_applyTo_mixed :
    let inner : Entry Float := ⟨"d", .double 2.5, some (.double 1), some (.integer 3)⟩
    let es : List (Entry Float) := [⟨"a", .double 5, some (.integer 1), some (.double 3)⟩, inner,
      ⟨"a", .integer 7, some (.integer 2), some (.integer 9)⟩, ⟨"b", .double 2, none, none⟩,
      ⟨"a", .double 0.5, some (.double 1), some (.double 2)⟩]
    let s : Store Float := ⟨[⟨"c", 0, 0, 1⟩, ⟨"a", 9, 8, 10⟩], [⟨"e", 3, 3, 3⟩]⟩
    let s' : Store Float := ⟨[⟨"c", 0, 0, 1⟩, ⟨"a", 1, 1, 2⟩, ⟨"d", 2.5, 1, 3⟩, ⟨"b", 2, 2, 2⟩],
      [⟨"e", 3, 3, 3⟩, ⟨"a", 7, 2, 9⟩]⟩
    let source : Source Float := fun _ => some es
    (source.applyTo "rose").on s = (.ok 5, s') ∧ (source.applyTo "rose").on s' = (.ok 5, s') ∧
      Rows.Written (es.filterMap double?) s.doubles s'.doubles ∧
      ∀ p, inner.double? = some p → p.value = 2.5 := by
  intro inner es s s' source
  have h : (source.applyTo "rose").on s = (.ok 5, s') := by decide +kernel
  obtain ⟨-, -, hdefines, hdoubles, -, hagain, -⟩ := entries_of_applyTo h
  refine ⟨h, hagain, hdoubles, fun p hp => ?_⟩
  have hinner := hdefines inner (.tail _ (.head _))
  rw [hp] at hinner
  obtain ⟨x, lo, hi, hx, hlo, hhi, hconfines⟩ := hinner.confines
  cases hx
  cases hlo
  cases hhi
  exact value_of_confines hconfines (by decide +kernel) (by decide +kernel)

end Source

end Arbor
