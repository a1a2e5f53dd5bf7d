import Arbor.Proofs.FailedSteps
import Arbor.Proofs.PlantPrograms

namespace Arbor

open Calculation LSystem

variable {α : Type} [Scalar α] {params : Store α}

omit [Scalar α] in
theorem Store.Excuses.mono {cause cause' : Prop} {fault : Fault α} (h : params.Excuses cause fault)
    (himp : cause → cause') : params.Excuses cause' fault :=
  h.imp_right fun hover => ⟨hover.1, himp hover.2⟩

section

variable {δ : Type → Type} [Dialect δ] {bad : Fault α → Prop} {cause : Prop}

theorem Derivation.replaceAll_faults {w : Word δ α}
    (hregrow : ∀ i, Meets bad (fun _ => True) (Dialect.regrow δ params i))
    (hsuccessor : ∀ p, .production p ∈ w →
      Drawing.Meets bad (fun _ => True) (Dialect.successor params p)) :
    Drawing.Meets bad (fun _ => True) (replaceAll params w) :=
  replaceAll_relates (fun _ _ => True) trivial (fun _ _ _ _ _ _ => trivial) w
    (fun _ => trivial) (fun i _ => hregrow i) hsuccessor

theorem LSystem.fault_of_step {l l' : LSystem δ α} {fault : Fault α}
    (h : Drawing.Meets bad (fun _ => True) (Derivation.replaceAll params l.word))
    (hstep : (step params).run.run l = (.error fault, l')) : bad fault := by
  have hmeets := h l.generator
  rw [(step_eq_error hstep).1] at hmeets
  exact hmeets

theorem Derivation.faults_of_successors (x : δ α → Except (Fault α) (Word δ α))
    (hlift : ∀ p, Dialect.successor params p = liftM (x p)) {post : Word δ α → Prop}
    (hsuccessor : ∀ p, Meets (params.Excuses cause) post (x p))
    (hregrow : ∀ i, Meets (params.Excuses cause) (fun _ => True) (Dialect.regrow δ params i))
    (w : Word δ α) : Drawing.Meets (params.Excuses cause) (fun _ => True) (replaceAll params w) :=
  replaceAll_faults hregrow fun p _ =>
    hlift p ▸ Drawing.meets_lift ((hsuccessor p).mono (fun _ _ => trivial) fun _ => id)

end

namespace Helical

variable {start : Word Helical α} {n : Nat} {g : Generator} {l : LSystem Helical α}

theorem aged_of_reached (hstart : Helical.start params = .ok start)
    (hgrown : after params n start g = (.ok (), l)) : l.word.Sound (Aged params n) := by
  have hsound : Meets (params.Excuses True) (Word.Sound (Aged params 0)) (Helical.start params) :=
    start_meets
  rw [hstart] at hsound
  exact after_keeps (fun m w => w.Sound (Aged params m)) hgrown hsound fun _ _ => replaceAll_aged

theorem spills_of_reached (hstart : Helical.start params = .ok start)
    (hgrown : after params n start g = (.ok (), l)) {p : Helical α} (hp : .production p ∈ l.word)
    {c : Calculation} (hc : firstUnfit (calculations params p) = some c) :
    ∃ count : Int64, count.toInt = n ∧ Spills params count c := by
  have haged := (aged_of_reached hstart hgrown).productions p hp
  cases p with
  | stalk length width angle count => exact ⟨count, haged.1, unfit_stalk hc⟩
  | shoot => cases hc

theorem faults_of_word (w : Word Helical α) :
    Drawing.Meets (params.Excuses (∃ p, .production p ∈ w ∧ ¬ Safe (calculations params p)))
      (fun _ => True) (Derivation.replaceAll params w) := by
  refine Derivation.replaceAll_faults (fun i => ?_) fun p hp => Drawing.meets_lift ?_
  · exact (regrow_meets i).mono (fun _ _ => trivial) fun _ => id
  · exact (successor_outcome p).mono (fun _ _ => trivial) fun _ hfault =>
      hfault.mono fun hspills => ⟨p, hp, hspills⟩

/-- Where a calculation does not fit there is no next generation. -/
theorem step_fails {p : Helical α} (hp : .production p ∈ l.word)
    (hspills : ¬ Safe (calculations params p)) :
    ∃ fault l', (step params).run.run l = (.error fault, l') := by
  have hnone : Drawing.Meets (fun _ => True) (fun _ => False)
      (Dialect.successor params p : Drawing α (Word Helical α)) :=
    Drawing.meets_lift ((successor_outcome p).mono (fun _ h => hspills h.2) fun _ _ => trivial)
  have hnext := Derivation.replaceAll_member hp hnone l.generator
  rw [step_run]
  generalize (Derivation.replaceAll params l.word).run.run l.generator = r at hnext ⊢
  obtain ⟨fault | w, g⟩ := r
  · exact ⟨fault, _, rfl⟩
  · obtain ⟨v, hv, -⟩ := hnext
    exact hv.elim

end Helical

namespace Stochastic

variable {start : Word Stochastic α} {n : Nat} {g : Generator} {l : LSystem Stochastic α}

theorem aged_of_reached (hstart : Stochastic.start params = .ok start)
    (hgrown : after params n start g = (.ok (), l)) : l.word.Sound (Aged n) := by
  have hsound : Meets (params.Excuses True) (Word.Sound (Aged 0)) (Stochastic.start params) :=
    start_meets
  rw [hstart] at hsound
  refine after_keeps (fun m w => w.Sound (Aged m)) hgrown hsound fun m w hw => ?_
  refine Derivation.replaceAll_sound (fun p hp => ?_) (fun i => ?_) hw
  · exact (successor_outcome p hp).mono (fun _ => id) fun _ _ => trivial
  · exact Store.any_of_excused (regrow_meets i)

theorem last_of_reached (hstart : Stochastic.start params = .ok start)
    (hgrown : after params n start g = (.ok (), l)) {p : Stochastic α}
    (hp : .production p ∈ l.word) (hspills : ¬ Safe (calculations p)) :
    Int64.maxValue.toInt ≤ n ∧ calculations p = [.sum Int64.maxValue 1] := by
  have haged := (aged_of_reached hstart hgrown).productions p hp
  obtain ⟨probability, rfl⟩ := eq_maxValue_of_spills hspills
  exact ⟨haged.2, rfl⟩

theorem faults_of_word {w : Word Stochastic α} (hw : w.Sound (Aged n)) :
    Drawing.Meets (params.Excuses (∃ p, .production p ∈ w ∧ ¬ Safe (calculations p)))
      (fun _ => True) (Derivation.replaceAll params w) := by
  refine Derivation.replaceAll_faults (fun i => ?_) fun p hp => ?_
  · exact (regrow_meets i).mono (fun _ _ => trivial) fun _ => id
  · exact (successor_outcome p (hw.productions p hp)).mono (fun _ _ => trivial) fun _ hfault =>
      hfault.mono fun hspills => ⟨p, hp, hspills⟩

end Stochastic

def TreeSpecies.calculations (params : Store α) :
    (s : TreeSpecies) → (Species.grammar s).Production α → List Calculation
  | .helical, p => Helical.calculations params p
  | .stochastic, p => Stochastic.calculations p
  | .monopodial, _ | .stump, _ | .sympodial, _ | .ternary, _ => []

namespace Plant

variable (tree : Plant TreeSpecies α)

/-- What a tree can calculate in generation `n` that does not fit: the difference of a stalk whose
parameter is too far below zero, or the count after the last one. -/
def Spills (n : Nat) (c : Calculation) : Prop :=
  (tree.species = .helical ∧ ∃ count branchless : Int64, count.toInt = n ∧
    tree.parameters.integer "branchlessPoints" = .ok branchless ∧
    Int64.maxValue.toInt < n - branchless.toInt ∧ c = .difference count branchless) ∨
  Int64.maxValue.toInt ≤ n ∧ c = .sum Int64.maxValue 1

/-- What the productions of a word in generation `n` calculate, and how the next generation
fails. -/
structure Reckons (n : Nat) (l : LSystem tree.grammar.Production α) : Prop where
  unfit : ∀ p, .production p ∈ l.word → ∀ c,
    firstUnfit (tree.species.calculations tree.parameters p) = some c → tree.Spills n c
  faults : ∀ fault l', (step tree.parameters).run.run l = (.error fault, l') →
    tree.parameters.Excuses (∃ p, .production p ∈ l.word ∧
      ¬ Safe (tree.species.calculations tree.parameters p)) fault

theorem reckons_of_reached {tree : Plant TreeSpecies α}
    {start : Word tree.grammar.Production α} (hstart : tree.start = .ok start) {n : Nat}
    {g : Generator} {l : LSystem tree.grammar.Production α}
    (hgrown : after tree.parameters n start g = (.ok (), l)) : tree.Reckons n l := by
  obtain ⟨species, parameters⟩ := tree
  cases species with
  | helical =>
      constructor
      · intro p hp c hc
        obtain ⟨count, hcount, hspills⟩ := Helical.spills_of_reached hstart hgrown hp hc
        rcases hspills with ⟨branchless, steps, hbranchless, -, -, hover, rfl⟩ | ⟨rfl, rfl⟩
        · exact .inl ⟨rfl, count, branchless, hcount, hbranchless, hcount ▸ hover, rfl⟩
        · exact .inr ⟨hcount.le, rfl⟩
      · exact fun fault l' hstep => fault_of_step (Helical.faults_of_word l.word) hstep
  | stochastic =>
      constructor
      · intro p hp c hc
        have hspills : ¬ Safe (Stochastic.calculations p) := fun hsafe => by
          cases (firstUnfit_eq_none.mpr hsafe).symm.trans hc
        obtain ⟨hlast, hcalculations⟩ := Stochastic.last_of_reached hstart hgrown hp hspills
        refine .inr ⟨hlast, ?_⟩
        have hmem := List.mem_of_find?_eq_some hc
        exact List.mem_singleton.mp (hcalculations ▸ hmem)
      · intro fault l' hstep
        exact fault_of_step (Stochastic.faults_of_word (Stochastic.aged_of_reached hstart hgrown))
          hstep
  | monopodial =>
      refine ⟨nofun, fun fault l' hstep => fault_of_step ?_ hstep⟩
      exact Derivation.faults_of_successors (Monopodial.successor parameters) (fun _ => rfl)
        Monopodial.successor_meets (fun _ => trivial) l.word
  | stump =>
      refine ⟨nofun, fun fault l' hstep => fault_of_step ?_ hstep⟩
      exact Derivation.replaceAll_faults (fun _ => trivial) nofun
  | sympodial =>
      refine ⟨nofun, fun fault l' hstep => fault_of_step ?_ hstep⟩
      exact Derivation.faults_of_successors (Sympodial.successor parameters) (fun _ => rfl)
        Sympodial.successor_meets (fun _ => trivial) l.word
  | ternary =>
      refine ⟨nofun, fun fault l' hstep => fault_of_step ?_ hstep⟩
      exact Derivation.faults_of_successors (Ternary.successor parameters) (fun _ => rfl)
        Ternary.successor_meets
        (fun i => (Ternary.regrow_meets i).mono (fun _ _ => trivial) fun _ => id) l.word

theorem leaf_faults (leaf : Plant LeafSpecies α) (w : Word leaf.grammar.Production α) :
    Drawing.Meets (leaf.parameters.Excuses False) (fun _ => True)
      (Derivation.replaceAll leaf.parameters w) := by
  obtain ⟨species, parameters⟩ := leaf
  cases species with
  | cordate =>
      exact Derivation.faults_of_successors (Cordate.successor parameters) (fun _ => rfl)
        Cordate.successor_meets (fun _ => trivial) w
  | planar =>
      exact Derivation.replaceAll_faults (fun _ => trivial) nofun
  | rose | simple =>
      exact Derivation.faults_of_successors (Pinnate.successor parameters) (fun _ => rfl)
        Pinnate.successor_meets (fun _ => trivial) w

end Plant

/-- In a word that a tree has grown to, the first calculation of a production that does not fit is
the difference of a stalk whose parameter is too far below zero, or a count after the last one; in
particular all remainders fit, and what twigs count down. Generations fail with an overflow only
where a calculation does not fit, and those of helical trees fail wherever one does not. Leaves
never overflow. -/
theorem calculations_of_reached :
    (∀ (tree : Plant TreeSpecies α) start, tree.start = .ok start → ∀ n g l,
      after tree.parameters n start g = (.ok (), l) → tree.Reckons n l) ∧
    (∀ (params : Store α) (l : LSystem Helical α) p, .production p ∈ l.word →
      ¬ Safe (Helical.calculations params p) →
        ∃ fault l', (step params).run.run l = (.error fault, l')) ∧
    ∀ (leaf : Plant LeafSpecies α) l fault l',
      (step leaf.parameters : Growing leaf.grammar.Production α Unit).run.run l =
        (.error fault, l') → leaf.parameters.Lacks fault := by
  refine ⟨?_, ?_, ?_⟩
  · exact fun tree start hstart n g l hgrown => Plant.reckons_of_reached hstart hgrown
  · exact fun params l p hp hspills => Helical.step_fails hp hspills
  · intro leaf l fault l' hstep
    exact (fault_of_step (leaf.leaf_faults l.word) hstep).resolve_right And.right

def Helical.early : Store Float :=
  Store.setInteger "branchlessPoints" Int64.minValue
    (Store.setInteger "stalkPoints" 1 Helical.defaults)

/-- Its very first difference does not fit, although no parameter is missing. -/
theorem first_difference_spills :
    ∃ w p, Helical.start Helical.early = .ok w ∧ .production p ∈ w ∧
      firstUnfit (Helical.calculations Helical.early p) = some (.difference 0 Int64.minValue) ∧
      ∃ l', (step Helical.early).run.run { word := w } = (.error .overflow, l') := by
  obtain ⟨w, l', hstart, hstep⟩ : ∃ w l', Helical.start Helical.early = .ok w ∧
      (step Helical.early).run.run { word := w } = (.error .overflow, l') := ⟨_, _, rfl, rfl⟩
  have hexcused := fault_of_step (Helical.faults_of_word w) hstep
  obtain ⟨p, hp, hspills⟩ := (hexcused.resolve_left id).2
  obtain ⟨c, hc⟩ := exists_firstUnfit hspills
  obtain ⟨count, hcount, hspills⟩ :=
    Helical.spills_of_reached (n := 0) (g := Generator.ofSeed 0) hstart rfl hp hc
  cases Int64.toInt_inj.mp (hcount.trans Int64.toInt_zero.symm)
  rcases hspills with ⟨branchless, steps, hbranchless, -, -, -, rfl⟩ | ⟨hlast, -⟩
  · cases hbranchless.symm.trans (rfl : _ = Except.ok Int64.minValue)
    exact ⟨w, p, hstart, hp, hc, l', hstep⟩
  · exact absurd hlast (by decide)

end Arbor
