import Arbor.Proofs.SeededDraws

namespace Arbor

variable {δ : Type → Type} [Dialect δ] {α : Type} [Scalar α]

namespace Derivation

variable {params : Store α}

theorem replaceOnto_eq_error {done : Array (Symbol δ α)} {w : Word δ α} {g g' : Generator}
    {fault : Fault α} (h : (replaceOnto params done w).run.run g = (.error fault, g')) :
    ∃ before s behind found place, w = before ++ s :: behind ∧
      (replaceOnto params done before).run.run g = (.ok found, place) ∧
      (replace params s).run.run place = (.error fault, g') := by
  induction w generalizing done g with
  | nil => cases h
  | cons s rest ih =>
      rw [replaceOnto, run_run_bind] at h
      rcases hs : (replace params s).run.run g with ⟨_ | v, k⟩
      · rw [hs] at h
        cases h
        exact ⟨[], s, rest, done, g, rfl, rfl, hs⟩
      · rw [hs] at h
        obtain ⟨before, t, behind, found, place, rfl, hbefore, ht⟩ := ih h
        refine ⟨s :: before, t, behind, found, place, rfl, ?_, ht⟩
        rw [replaceOnto, run_run_bind, hs]
        exact hbefore

theorem replaceAll_eq_error {w : Word δ α} {g g' : Generator} {fault : Fault α}
    (h : (replaceAll params w).run.run g = (.error fault, g')) :
    ∃ before s behind found place, w = before ++ s :: behind ∧
      (replaceAll params before).run.run g = (.ok found, place) ∧
      (replace params s).run.run place = (.error fault, g') := by
  rw [replaceAll, run_run_bind] at h
  rcases hfound : (replaceOnto params #[] w).run.run g with ⟨_ | found, k⟩
  · rw [hfound] at h
    cases h
    obtain ⟨before, s, behind, found, place, hw, hbefore, hs⟩ := replaceOnto_eq_error hfound
    refine ⟨before, s, behind, found.toList, place, hw, ?_, hs⟩
    rw [replaceAll, run_run_bind, hbefore]
    rfl
  · rw [hfound] at h
    cases h

end Derivation

namespace LSystem

open Arbor.Derivation

/-- What a system answers to generations asked for one after the other, and what it shows after each
of them. A generation that fails ends nothing. -/
def answers : List (Store α) → LSystem δ α → List (Except (Fault α) Unit × Word δ α × Nat)
  | [], _ => []
  | params :: stores, l =>
    let (outcome, l) := (step params).run.run l
    (outcome, l.word, l.generation) :: answers stores l

theorem answers_cons (params : Store α) (stores : List (Store α)) (l : LSystem δ α) :
    answers (params :: stores) l =
      (((step params).run.run l).1, ((step params).run.run l).2.word,
        ((step params).run.run l).2.generation) :: answers stores ((step params).run.run l).2 := rfl

structure Traceless (l l' : LSystem δ α) : Prop where
  word : l'.word = l.word
  generation : l'.generation = l.generation
  answers : ∀ stores, answers stores l' = answers stores l

theorem traceless_refl (l : LSystem δ α) : Traceless l l := ⟨rfl, rfl, fun _ => rfl⟩

theorem answers_congr {rel : LSystem δ α → LSystem δ α → Prop}
    (hstep : ∀ params l l', rel l l' →
      Agree ((step params).run.run l) ((step params).run.run l') ∧
        rel ((step params).run.run l).2 ((step params).run.run l').2)
    {l l' : LSystem δ α} (h : rel l l') (stores : List (Store α)) :
    answers stores l = answers stores l' := by
  induction stores generalizing l l' with
  | nil => rfl
  | cons params stores ih =>
      obtain ⟨⟨houtcome, hword, hgeneration⟩, hrel⟩ := hstep params l l' h
      rw [answers_cons, answers_cons, houtcome, hword, hgeneration, ih hrel]

variable {params : Store α} {l l' : LSystem δ α} {fault : Fault α}

theorem step_eq_error (h : (step params).run.run l = (.error fault, l')) :
    (replaceAll params l.word).run.run l.generator = (.error fault, l'.generator) ∧
      l' = { l with generator := l'.generator } := by
  rw [step_run] at h
  rcases hnext : (replaceAll params l.word).run.run l.generator with ⟨_ | w, g⟩
  · rw [hnext] at h
    cases h
    exact ⟨rfl, rfl⟩
  · rw [hnext] at h
    cases h

theorem traceless_of_drawless (hδ : ∀ params : Store α, Drawless δ params)
    (h : (step params).run.run l = (.error fault, l')) : Traceless l l' := by
  obtain ⟨-, hl'⟩ := step_eq_error h
  rw [hl']
  let rel (l l' : LSystem δ α) : Prop := l.word = l'.word ∧ l.generation = l'.generation
  have hstep (params : Store α) (l l' : LSystem δ α) (hrel : rel l l') :
      Agree ((step params).run.run l) ((step params).run.run l') ∧
        rel ((step params).run.run l).2 ((step params).run.run l').2 := by
    have hagree := agree_step hrel.1 hrel.2
      ((hδ params).blind l.word l.generator l'.generator)
    exact ⟨hagree, hagree.word, hagree.generation⟩
  have hrel : rel { l with generator := l'.generator } l := ⟨rfl, rfl⟩
  exact ⟨rfl, rfl, answers_congr hstep hrel⟩

end LSystem

namespace Stochastic

open Arbor.Derivation LSystem

variable {params : Store α} {w : Word Stochastic α} {l l' : LSystem Stochastic α}

/-- A seed stands in front of all nodes. -/
def Sheltered (w : Word Stochastic α) : Prop :=
  ∃ quiet seed rest, w = quiet ++ .instruction (.reseed seed) :: rest ∧ drawn quiet = 0

theorem twig_still (remaining : Int64) : (successor params (twig remaining)).Still := by
  iterate 4 refine (Drawing.still_lift _).bind fun _ => ?_
  change Drawing.Still (if remaining < 0 then _ else _)
  split
  · exact Drawing.still_lift (.ok [])
  · iterate 3 refine (Drawing.still_lift _).bind fun _ => ?_
    exact Drawing.still_lift (.ok _)

theorem replace_quiet {s : Symbol Stochastic α} (h : draws s = 0) :
    ∃ r, ∀ g, (replace params s).run.run g = (r, s.restart g) := by
  by_cases hs : ∃ seed, s = .instruction (.reseed seed)
  · obtain ⟨seed, rfl⟩ := hs
    exact ⟨.ok [], fun _ => rfl⟩
  · have hs' : ∀ seed, s ≠ .instruction (.reseed seed) := fun seed he => hs ⟨seed, he⟩
    have hstill : (replace params s).Still := by
      refine still_replace hs' fun p hp => ?_
      subst hp
      cases p with
      | apex probability depth => cases h
      | twig remaining => exact twig_still remaining
    obtain ⟨r, hr⟩ := hstill
    exact ⟨r, fun g => by rw [hr, Symbol.restart_eq hs']⟩

theorem replaceAll_quiet (params : Store α) (h : drawn w = 0) : (replaceAll params w).Blind := by
  refine blind_replaceAll fun s hs => replace_quiet ?_
  obtain ⟨before, behind, rfl⟩ := List.append_of_mem hs
  rw [drawn_append] at h
  exact (Nat.add_eq_zero_iff.mp (Nat.add_eq_zero_iff.mp h).2).1

theorem Sheltered.replaceAll (h : Sheltered w) (params : Store α) (g g' : Generator) :
    (∃ fault, ((replaceAll params w).run.run g).1 = .error fault ∧
        ((replaceAll params w).run.run g').1 = .error fault) ∨
      (replaceAll params w).run.run g = (replaceAll params w).run.run g' := by
  obtain ⟨quiet, seed, rest, rfl, hquiet⟩ := h
  have hblind := replaceAll_quiet params hquiet g g'
  rw [replaceAll_append, run_run_bind, run_run_bind]
  generalize (Derivation.replaceAll params quiet).run.run g = r at hblind ⊢
  generalize (Derivation.replaceAll params quiet).run.run g' = r' at hblind ⊢
  obtain ⟨r, k⟩ := r
  obtain ⟨r', k'⟩ := r'
  cases hblind
  cases r with
  | error fault => exact .inl ⟨fault, rfl, rfl⟩
  | ok v =>
      refine .inr ?_
      dsimp only
      rw [run_run_bind, run_run_bind, replaceAll_reseed, replaceAll_reseed]

/-- Two systems that are the same, or whose word is sheltered. -/
def Near (l l' : LSystem Stochastic α) : Prop :=
  l.word = l'.word ∧ l.generation = l'.generation ∧
    (Sheltered l.word ∨ l.generator = l'.generator)

theorem step_near (params : Store α) (l l' : LSystem Stochastic α) (h : Near l l') :
    Agree ((step params).run.run l) ((step params).run.run l') ∧
      Near ((step params).run.run l).2 ((step params).run.run l').2 := by
  obtain ⟨word, g, generation⟩ := l
  obtain ⟨word', g', generation'⟩ := l'
  obtain ⟨hword, hgeneration, hnear⟩ := h
  dsimp only at hword hgeneration hnear
  subst hword hgeneration
  rw [step_run, step_run]
  dsimp only
  -- a sheltered word stays as it is if it fails, and else the seed makes the two systems the same
  rcases hnear with hsheltered | rfl
  · obtain ⟨fault, hg, hg'⟩ | hsame := hsheltered.replaceAll params g g'
    · generalize (replaceAll params word).run.run g = r at hg ⊢
      generalize (replaceAll params word).run.run g' = r' at hg' ⊢
      obtain ⟨r, k⟩ := r
      obtain ⟨r', k'⟩ := r'
      cases hg
      cases hg'
      exact ⟨⟨rfl, rfl, rfl⟩, rfl, rfl, .inl hsheltered⟩
    · rw [hsame]
      exact ⟨⟨rfl, rfl, rfl⟩, rfl, rfl, .inr rfl⟩
  · exact ⟨⟨rfl, rfl, rfl⟩, rfl, rfl, .inr rfl⟩

variable {fault : Fault α}

theorem traceless_of_sheltered (hw : Sheltered l.word)
    (h : (step params).run.run l = (.error fault, l')) : Traceless l l' := by
  obtain ⟨-, hl'⟩ := step_eq_error h
  rw [hl']
  have hnear : Near { l with generator := l'.generator } l := ⟨rfl, rfl, .inl hw⟩
  exact ⟨rfl, rfl, answers_congr step_near hnear⟩

omit [Scalar α] in
theorem seedless_or_sheltered {before : Word Stochastic α} (h : drawn before = 0)
    (behind : Word Stochastic α) : before.Seedless ∨ Sheltered (before ++ behind) := by
  by_cases hseed : ∃ seed, .instruction (.reseed seed) ∈ before
  · obtain ⟨seed, hmem⟩ := hseed
    obtain ⟨quiet, rest, rfl⟩ := List.append_of_mem hmem
    rw [drawn_append] at h
    exact .inr ⟨quiet, seed, rest ++ behind, by simp, (Nat.add_eq_zero_iff.mp h).1⟩
  · exact .inl fun seed hmem => hseed ⟨seed, hmem⟩

omit [Scalar α] in
theorem start_sheltered (h : start params = .ok w) : Sheltered w := by
  obtain ⟨seed, rest, -, rfl, -⟩ := start_eq_ok h
  exact ⟨[], _, rest, rfl, rfl⟩

/-- A failed generation has drawn the numbers of the nodes it came across. -/
theorem generator_of_failed (h : (step params).run.run l = (.error fault, l')) :
    ∃ before s behind found, l.word = before ++ s :: behind ∧
      (replaceAll params before).run.run l.generator = (.ok found, leave before l.generator) ∧
      (params.Lacks fault ∧ l'.generator = leave before l.generator ∨
        fault = .overflow ∧ Deepest s ∧
          ∃ d ≤ 3, l'.generator = (leave before l.generator).advance d) := by
  obtain ⟨hnext, -⟩ := step_eq_error h
  obtain ⟨before, s, behind, found, place, hword, hbefore, hs⟩ := replaceAll_eq_error hnext
  cases replaceAll_leaves hbefore
  refine ⟨before, s, behind, found, hword, hbefore, ?_⟩
  generalize l'.generator = g' at hs ⊢
  obtain ⟨v, hv⟩ | ⟨fault', hlacks, hv⟩ | ⟨d, hd, hdeepest, hv⟩ :=
    replace_outcome params s (leave before l.generator)
  · rw [hv] at hs
    cases hs
  · rw [hv] at hs
    cases hs
    exact .inl ⟨hlacks, rfl⟩
  · rw [hv] at hs
    obtain ⟨probability, rfl⟩ := hdeepest
    cases hs
    exact .inr ⟨rfl, ⟨probability, rfl⟩, d, hd, rfl⟩

end Stochastic

namespace Plant

theorem tree_traceless {species : TreeSpecies} (hspecies : species ≠ .stochastic)
    {params : Store α} {l l' : LSystem (Species.grammar species).Production α} {fault : Fault α}
    (h : (LSystem.step params).run.run l = (.error fault, l')) : LSystem.Traceless l l' :=
  LSystem.traceless_of_drawless (fun params =>
    have hundrawn := @tree_undrawn α _ ⟨species, params⟩ hspecies
    hundrawn.drawless) h

theorem leaf_traceless {species : LeafSpecies} {params : Store α}
    {l l' : LSystem (Species.grammar species).Production α} {fault : Fault α}
    (h : (LSystem.step params).run.run l = (.error fault, l')) : LSystem.Traceless l l' :=
  LSystem.traceless_of_drawless (fun params => (leaf_undrawn ⟨species, params⟩).drawless) h

end Plant

open LSystem Stochastic in
/-- A failed generation leaves no trace in species that draw nothing. In stochastic trees it leaves
none where a seed stands in front of all nodes, as in every word that a tree starts from, and none
where no node stands to the left of the symbol that failed. Otherwise the draws of those nodes stay
drawn. -/
theorem traces_of_failed_steps :
    (∀ species : TreeSpecies, species ≠ .stochastic →
      ∀ (params : Store α) (l l' : LSystem (Species.grammar species).Production α) fault,
        (step params).run.run l = (.error fault, l') → Traceless l l') ∧
    (∀ (species : LeafSpecies) (params : Store α)
      (l l' : LSystem (Species.grammar species).Production α) fault,
        (step params).run.run l = (.error fault, l') → Traceless l l') ∧
    (∀ (params : Store α) w, Stochastic.start params = .ok w → Sheltered w) ∧
    ∀ (params : Store α) (l l' : LSystem Stochastic α) fault,
      (step params).run.run l = (.error fault, l') →
        l' = { l with generator := l'.generator } ∧
        (Sheltered l.word → Traceless l l') ∧
        ∃ before s behind found, l.word = before ++ s :: behind ∧
          (Derivation.replaceAll params before).run.run l.generator =
            (.ok found, leave before l.generator) ∧
          (params.Lacks fault ∧ l'.generator = leave before l.generator ∧
              (drawn before = 0 → Traceless l l') ∧
              (l.word.Seedless → (l' = l ↔ drawn before = 0)) ∨
            fault = .overflow ∧ Deepest s ∧
              ∃ d ≤ 3, l'.generator = (leave before l.generator).advance d) := by
  refine ⟨fun _ hspecies _ _ _ _ => Plant.tree_traceless hspecies,
    fun _ _ _ _ _ => Plant.leaf_traceless, fun _ _ => start_sheltered, ?_⟩
  intro params l l' fault h
  obtain ⟨-, hl'⟩ := step_eq_error h
  refine ⟨hl', fun hw => traceless_of_sheltered hw h, ?_⟩
  obtain ⟨before, s, behind, found, hword, hbefore, hfault⟩ := generator_of_failed h
  refine ⟨before, s, behind, found, hword, hbefore, hfault.imp_left ?_⟩
  rintro ⟨hlacks, hgenerator⟩
  refine ⟨hlacks, hgenerator, fun hdrawn => ?_, fun hseedless => ?_⟩
  -- a seed among symbols that draw nothing shelters the whole word
  · rcases seedless_or_sheltered hdrawn (s :: behind) with hseedless | hsheltered
    · rw [leave_seedless hseedless, hdrawn] at hgenerator
      rw [hl', hgenerator]
      exact traceless_refl l
    · exact traceless_of_sheltered (hword ▸ hsheltered) h
  · rw [hword] at hseedless
    rw [leave_seedless (Word.seedless_append.mp hseedless).1] at hgenerator
    constructor
    · intro he
      rw [he] at hgenerator
      have hplace := congrArg Generator.drawn hgenerator
      exact Nat.left_eq_add.mp hplace
    · intro hdrawn
      rw [hl', hgenerator, hdrawn]
      rfl

/-- A node is replaced, the segment behind it fails for want of a rate, and once the rate is set two
shoots sprout from the node instead of one. -/
theorem failed_step_traced :
    let params : Store Float := ⟨[.fixed "initialWidth" 1, .fixed "widthIncreaseRate" 1,
      .fixed "divergenceAngle1" 90, .fixed "divergenceAngle2" 90, .fixed "lengthScale" 1,
      .fixed "branchingAngle" 30, .fixed "branchProbReduction" 1],
      [.fixed "leafIterationNumber" 0, .fixed "totalLeafIterations" 0]⟩
    let l : LSystem Stochastic Float := { word := Word.grow (.apex 0.6 0) ++ Word.op (.advance 1) }
    let failed := (LSystem.step params).run.run l
    failed.1 = .error (.missingParameter .double "elongationRate") ∧
      LSystem.answers [params.setDouble "elongationRate" 1] failed.2 ≠
        LSystem.answers [params.setDouble "elongationRate" 1] l := by
  intro params l failed
  refine ⟨by decide +kernel, fun he => ?_⟩
  have hlengths := congrArg (List.map fun answer => answer.2.1.length) he
  exact absurd hlengths (by decide +kernel)

end Arbor
