import Arbor.Proofs.ContextFreeWords
import Arbor.Proofs.ProgramShapes
import Arbor.Species.Plant

namespace Arbor

variable {α : Type}

/-- An instruction that does the same with segments and brackets, and is not a seed. -/
def Instruction.Kin : Instruction α → Instruction α → Prop
  | .advance _, j => ∃ e, j = .advance e
  | .push, j => j = .push
  | .pop, j => j = .pop
  | _, j => j.IsPlain ∧ ∀ seed, j ≠ .reseed seed

namespace Instruction.Kin

variable {i j k : Instruction α}

theorem ne_reseed (h : i.Kin j) (seed : UInt64) : j ≠ .reseed seed := by
  cases i with
  | advance => obtain ⟨e, rfl⟩ := h; nofun
  | push => exact fun he => nomatch h.symm.trans he
  | pop => exact fun he => nomatch h.symm.trans he
  | _ => exact h.2 seed

theorem isPlain (h : i.Kin j) (hi : i.IsPlain) : j.IsPlain := by
  cases i with
  | advance | push | pop => exact hi.elim
  | _ => exact h.1

theorem trans (h : i.Kin j) (h' : j.Kin k) : i.Kin k := by
  cases i with
  | advance => obtain ⟨e, rfl⟩ := h; exact h'
  | push => cases h; exact h'
  | pop => cases h; exact h'
  | _ => exact ⟨h'.isPlain h.1, h'.ne_reseed⟩

end Instruction.Kin

theorem Instruction.kin_self {i : Instruction α} (h : ∀ seed, i ≠ .reseed seed) : i.Kin i := by
  cases i with
  | advance e => exact ⟨e, rfl⟩
  | push | pop => rfl
  | _ => exact ⟨trivial, h⟩

variable {δ : Type → Type} [Dialect δ] [Scalar α]

namespace Derivation

variable {params : Store α}

structure Steady (δ : Type → Type) [Dialect δ] (params : Store α) : Prop where
  drawless : Drawless δ params
  kin : ∀ i j, (∀ seed, i ≠ .reseed seed) → Dialect.regrow δ params i = .ok j → i.Kin j

theorem steady_of_regrow (h : Drawless δ params)
    (hregrow : ∀ i, Dialect.regrow δ params i = .ok i) : Steady δ params := by
  refine ⟨h, fun i j hi hj => ?_⟩
  cases (hregrow i).symm.trans hj
  exact Instruction.kin_self hi

/-- In so many generations the word becomes one with a program of that shape. -/
def Grows (params : Store α) (n : Nat) (w : Word δ α) (t : Bush) : Prop :=
  ∀ w', Expands params n w w' → Shapes w'.program t

theorem Steady.expands_op (h : Steady δ params) {n : Nat} {i : Instruction α}
    (hi : ∀ seed, i ≠ .reseed seed) {w : Word δ α} (hw : Expands params n (Word.op i) w) :
    ∃ j, w = Word.op j ∧ i.Kin j := by
  induction n generalizing i with
  | zero => exact ⟨i, hw.symm, Instruction.kin_self hi⟩
  | succ n ih =>
      obtain ⟨v, hv, hw⟩ := hw
      rw [next_op hi, map_eq_ok] at hv
      obtain ⟨j, hj, rfl⟩ := hv
      have hkin := h.kin i j hi hj
      obtain ⟨k, rfl, hk⟩ := ih hkin.ne_reseed hw
      exact ⟨k, rfl, hkin.trans hk⟩

variable {n : Nat} {v w : Word δ α} {s t : Bush}

theorem grows_nil : Grows params n ([] : Word δ α) .nil := by
  intro w' hw
  rw [expands_nil.mp hw]
  exact .nil

theorem grows_zero (p : δ α) : Grows params 0 (Word.grow p) .nil := by
  rintro _ rfl
  exact .nil

theorem grows_succ {p : δ α} {x : Except (Fault α) (Word δ α)}
    (hlift : Dialect.successor params p = liftM x)
    (hx : Meets (fun _ => True) (fun v => Grows params n v t) x) :
    Grows params (n + 1) (Word.grow p) t := by
  rintro w' ⟨v, hv, hw⟩
  rw [next_grow hlift] at hv
  rw [hv] at hx
  exact hx w' hw

namespace Steady

variable (h : Steady δ params)

include h

theorem grows_plain {i : Instruction α} (hplain : i.IsPlain) (hi : ∀ seed, i ≠ .reseed seed)
    (hw : Grows params n w t) : Grows params n (Word.op i ++ w) t := by
  intro u hu
  obtain ⟨_, w', hop, hw', rfl⟩ := h.drawless.expands_append.mp hu
  obtain ⟨j, rfl, hj⟩ := h.expands_op hi hop
  exact .plain j _ t (hj.isPlain hplain) (hw w' hw')

theorem grows_advance {e : α} (hw : Grows params n w t) :
    Grows params n (Word.op (.advance e) ++ w) (.node t .nil) := by
  intro u hu
  obtain ⟨_, w', hop, hw', rfl⟩ := h.drawless.expands_append.mp hu
  obtain ⟨_, rfl, e', rfl⟩ := h.expands_op (i := .advance e) nofun hop
  exact .advance e' _ t (hw w' hw')

theorem grows_branch (hv : Grows params n v s) (hw : Grows params n w t) :
    Grows params n (Word.branch v ++ w) (s ++ t) := by
  intro u hu
  obtain ⟨_, w', hbranch, hw', rfl⟩ := h.drawless.expands_append.mp hu
  obtain ⟨_, _, hopen, hpop, rfl⟩ := h.drawless.expands_append.mp hbranch
  obtain ⟨_, v', hpush, hv', rfl⟩ := h.drawless.expands_append.mp hopen
  obtain ⟨_, rfl, rfl⟩ := h.expands_op (i := .push) nofun hpush
  obtain ⟨_, rfl, rfl⟩ := h.expands_op (i := .pop) nofun hpop
  have hshape := Shapes.branch _ _ s t (hv v' hv') (hw w' hw')
  simpa using hshape

theorem grows_enclosed (hv : Grows params n v s) : Grows params n (Word.branch v) s := by
  have hlast := h.grows_branch hv (grows_nil (n := n))
  rwa [List.append_nil, Bush.append_nil] at hlast

end Steady

end Derivation

theorem Plant.shapes_program {σ : Type} [Species σ] {plant : Plant σ α}
    (h : Derivation.Drawless plant.grammar.Production plant.parameters) (shape : Nat → Bush)
    (hstart : ∀ n, Meets (fun _ => True)
      (fun w => Derivation.Grows plant.parameters n w (shape n)) plant.start)
    {program : List (Instruction α)} (hprogram : plant.program = .ok program) :
    ∃ m, plant.parameters.integer "iterationNumber" = .ok m ∧
      Shapes program (shape m.toNatClampNeg) := by
  obtain ⟨⟨n, word⟩, hgrown, rfl⟩ := map_eq_ok.mp hprogram
  obtain ⟨start, hs, hderive⟩ := bind_eq_ok.mp hgrown
  obtain ⟨m, hm, rfl, hexpands⟩ := (derive_eq_ok h).mp hderive
  have hgrows := hstart m.toNatClampNeg
  rw [hs] at hgrows
  exact ⟨m, hm, hgrows word hexpands⟩

end Arbor
