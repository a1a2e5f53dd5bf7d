import Mathlib.Algebra.BigOperators.Group.Finset.Basic
import Arbor.Proofs.CountingTrees
import Arbor.Proofs.UndrawnSpecies

namespace Arbor

variable {α β γ : Type}

@[simp]
theorem Generator.advance_advance (g : Generator) (m n : Nat) :
    (g.advance m).advance n = g.advance (m + n) := by
  simp [advance, Nat.add_assoc]

namespace Drawing

/-- Draws `k` numbers. A fault is found before the first of them, or it comes late. -/
def Takes (early late : Fault α → Prop) (k : Nat) (x : Drawing α β) : Prop :=
  ∀ g, (∃ b, x.run.run g = (.ok b, g.advance k)) ∨
    (∃ fault, early fault ∧ x.run.run g = (.error fault, g)) ∨
    ∃ fault d, late fault ∧ d ≤ k ∧ x.run.run g = (.error fault, g.advance d)

variable {early late : Fault α → Prop} {j k : Nat} {s : Store α} {name : String}

theorem takes_pure (c : γ) : Takes early late 0 (Pure.pure c : Drawing α γ) :=
  fun _ => .inl ⟨c, rfl⟩

theorem takes_uniform [Scalar α] : Takes early late 1 (uniform : Drawing α α) :=
  fun g => .inl ⟨g.uniform.1, rfl⟩

theorem takes_lift {x : Except (Fault α) β} (h : Arbor.Meets late (fun _ => True) x) :
    Takes early late 0 (liftM x : Drawing α β) := by
  intro g
  cases x with
  | error fault => exact .inr (.inr ⟨fault, 0, h, Nat.le_refl 0, rfl⟩)
  | ok b => exact .inl ⟨b, rfl⟩

theorem Takes.mono {early' : Fault α → Prop} {x : Drawing α β} (h : Takes early late k x)
    (he : ∀ fault, early fault → early' fault) : Takes early' late k x :=
  fun g => (h g).imp_right (Or.imp_left fun ⟨fault, hfault, hrun⟩ => ⟨fault, he fault hfault, hrun⟩)

theorem Takes.lookup {x : Except (Fault α) β} {f : β → Drawing α γ}
    (hx : Arbor.Meets early (fun _ => True) x) (hf : ∀ b, Takes early late k (f b)) :
    Takes early late k (liftM x >>= f) := by
  intro g
  rw [run_run_bind]
  cases x with
  | error fault => exact .inr (.inl ⟨fault, hx, rfl⟩)
  | ok b => exact hf b g

theorem takes_double {f : α → Drawing α γ} (h : ∀ v, Takes s.Lacks late k (f v)) :
    Takes s.Lacks late k (liftM (s.double name) >>= f) :=
  Takes.lookup (Store.meets_double.mono (fun _ _ => trivial) fun _ => id) h

theorem takes_integer {f : Int64 → Drawing α γ} (h : ∀ n, Takes s.Lacks late k (f n)) :
    Takes s.Lacks late k (liftM (s.integer name) >>= f) :=
  Takes.lookup (Store.meets_integer.mono (fun _ _ => trivial) fun _ => id) h

theorem Takes.bind {x : Drawing α β} {f : β → Drawing α γ} (hx : Takes (fun _ => False) late j x)
    (hf : ∀ b, Takes (fun _ => False) late k (f b)) :
    Takes (fun _ => False) late (j + k) (x >>= f) := by
  intro g
  rw [run_run_bind]
  obtain ⟨b, hrun⟩ | ⟨_, ⟨⟩, -⟩ | ⟨fault, d, hlate, hd, hrun⟩ := hx g
  · rw [hrun]
    obtain ⟨c, hrun⟩ | ⟨_, ⟨⟩, -⟩ | ⟨fault, d, hlate, hd, hrun⟩ := hf b (g.advance j)
    · exact .inl ⟨c, by simp [hrun]⟩
    · exact .inr (.inr ⟨fault, j + d, hlate, by omega, by simp [hrun]⟩)
  · exact .inr (.inr ⟨fault, d, hlate, by omega, by rw [hrun]⟩)

end Drawing

variable [Scalar α] {params : Store α}

namespace Stochastic

open Arbor.Derivation Drawing

def draws : Symbol Stochastic α → Nat
  | .production (.apex _ _) => 3
  | _ => 0

def drawn : Word Stochastic α → Nat
  | [] => 0
  | s :: w => draws s + drawn w

omit [Scalar α] in
theorem drawn_append (v w : Word Stochastic α) : drawn (v ++ w) = drawn v + drawn w := by
  induction v with
  | nil => exact (Nat.zero_add _).symm
  | cons s v ih => exact (congrArg (draws s + ·) ih).trans (Nat.add_assoc _ _ _).symm

/-- A symbol whose nesting depth cannot be counted on. -/
def Deepest (s : Symbol Stochastic α) : Prop :=
  ∃ probability, s = .production (.apex probability Int64.maxValue)

omit [Scalar α] in
theorem next_meets (depth : Int64) :
    Meets (fun fault : Fault α => fault = .overflow ∧ depth = Int64.maxValue) (fun _ => True)
      (Count.next depth) :=
  (Count.next_outcome depth).mono (fun _ _ => trivial) fun _ h =>
    ⟨h.1, Count.eq_maxValue_of_unfit h.2⟩

/-- A node draws three numbers, on all the ways in which its shoots can sprout or not. -/
theorem apex_takes (probability : α) (depth : Int64) :
    Takes params.Lacks (fun fault => fault = .overflow ∧ depth = Int64.maxValue) 3
      (successor params (apex probability depth)) := by
  refine takes_double fun width => takes_double fun rate => takes_double fun roll₁ => ?_
  refine takes_double fun roll₂ => takes_double fun scale => takes_double fun angle => ?_
  refine takes_double fun reduction => takes_integer fun leafDepth => ?_
  refine takes_integer fun generations => ?_
  extract_lets shoot sprout
  have hsprout : Takes (fun _ => False)
      (fun fault => fault = .overflow ∧ depth = Int64.maxValue) 1 sprout := by
    refine takes_uniform.bind (k := 0) fun u => ?_
    split
    · exact (takes_lift (next_meets depth)).bind (k := 0) fun _ => takes_pure _
    · split
      · exact takes_pure _
      · exact takes_pure _
  suffices h : Takes (fun _ => False) _ 3 _ from h.mono nofun
  exact hsprout.bind fun _ => hsprout.bind fun _ => hsprout.bind fun _ => takes_pure _

theorem twig_takes {late : Fault α → Prop} (remaining : Int64) :
    Takes params.Lacks late 0 (successor params (twig remaining)) := by
  refine takes_double fun width => takes_double fun rate => takes_double fun roll₁ => ?_
  refine takes_double fun roll₂ => ?_
  change Takes params.Lacks late 0 (if remaining < 0 then _ else _)
  split
  · exact takes_pure _
  · refine takes_double fun scale => takes_double fun angle => ?_
    exact takes_double fun towardsVertical => takes_pure _

theorem regrow_takes {late : Fault α → Prop} (i : Instruction α) :
    Takes params.Lacks late 0
      (Derivation.successor params (.instruction i : Symbol Stochastic α)) := by
  have hregrow : Meets params.Lacks (fun _ => True) (Dialect.regrow Stochastic params i) := by
    cases i with
    | advance => exact Store.meets_double.bind fun _ _ => Meets.pure trivial
    | width _ rate => cases rate <;> exact Meets.pure trivial
    | _ => exact Meets.pure trivial
  exact Takes.lookup hregrow fun j => takes_pure _

theorem replace_takes (params : Store α) {s : Symbol Stochastic α}
    (hs : ∀ seed, s ≠ .instruction (.reseed seed)) :
    Takes params.Lacks (fun fault => fault = .overflow ∧ Deepest s) (draws s)
      (replace params s) := by
  cases s with
  | instruction i =>
      cases i with
      | reseed seed => exact (hs seed rfl).elim
      | _ => exact regrow_takes _
  | production p =>
      cases p with
      | twig remaining => exact twig_takes remaining
      | apex probability depth =>
          intro g
          refine (apex_takes probability depth g).imp_right (Or.imp_right ?_)
          rintro ⟨fault, d, ⟨hfault, rfl⟩, hd, hrun⟩
          exact ⟨fault, d, ⟨hfault, probability, rfl⟩, hd, hrun⟩

variable {w : Word Stochastic α} {g g' : Generator}

/-- A seed restarts the draws. Any other symbol draws its numbers, or fails before the first of them
unless its depth cannot be counted on. -/
theorem replace_outcome (params : Store α) (s : Symbol Stochastic α) (g : Generator) :
    (∃ v, (replace params s).run.run g = (.ok v, (s.restart g).advance (draws s))) ∨
      (∃ fault, params.Lacks fault ∧ (replace params s).run.run g = (.error fault, g)) ∨
      ∃ d ≤ draws s, Deepest s ∧
        (replace params s).run.run g = (.error .overflow, g.advance d) := by
  by_cases hs : ∃ seed, s = .instruction (.reseed seed)
  · obtain ⟨seed, rfl⟩ := hs
    exact .inl ⟨[], rfl⟩
  · have hs' : ∀ seed, s ≠ .instruction (.reseed seed) := fun seed he => hs ⟨seed, he⟩
    rw [Symbol.restart_eq hs']
    obtain hok | hearly | ⟨fault, d, ⟨rfl, hdeepest⟩, hd, hrun⟩ := replace_takes params hs' g
    · exact .inl hok
    · exact .inr (.inl hearly)
    · exact .inr (.inr ⟨d, hd, hdeepest, hrun⟩)

def leave (w : Word Stochastic α) (g : Generator) : Generator :=
  w.foldl (fun g s => (s.restart g).advance (draws s)) g

omit [Scalar α] in
theorem leave_seedless (hw : w.Seedless) (g : Generator) : leave w g = g.advance (drawn w) := by
  induction w generalizing g with
  | nil => rfl
  | cons s rest ih =>
      obtain ⟨hs, hrest⟩ := Word.seedless_cons.mp hw
      have hcons : leave (s :: rest) g = leave rest ((s.restart g).advance (draws s)) := rfl
      rw [hcons, ih hrest, Symbol.restart_eq hs, Generator.advance_advance]
      rfl

theorem replaceOnto_leaves {found all : Array (Symbol Stochastic α)}
    (hrun : (replaceOnto params found w).run.run g = (.ok all, g')) : g' = leave w g := by
  induction w generalizing found g with
  | nil =>
      cases hrun
      rfl
  | cons s rest ih =>
      rw [replaceOnto, run_run_bind] at hrun
      obtain ⟨v, hv⟩ | ⟨_, -, hv⟩ | ⟨_, -, -, hv⟩ := replace_outcome params s g
      · rw [hv] at hrun
        exact ih hrun
      · rw [hv] at hrun
        cases hrun
      · rw [hv] at hrun
        cases hrun

theorem replaceOnto_generator {found all : Array (Symbol Stochastic α)} (hw : w.Seedless)
    (hrun : (replaceOnto params found w).run.run g = (.ok all, g')) :
    g' = g.advance (drawn w) :=
  (replaceOnto_leaves hrun).trans (leave_seedless hw g)

theorem replaceAll_leaves {v : Word Stochastic α}
    (hrun : (replaceAll params w).run.run g = (.ok v, g')) : g' = leave w g := by
  rw [replaceAll, run_run_bind] at hrun
  rcases hfound : (replaceOnto params #[] w).run.run g with ⟨fault | found, k⟩
  · rw [hfound] at hrun
    cases hrun
  · rw [hfound] at hrun
    cases hrun
    exact replaceOnto_leaves hfound

theorem replaceAll_generator {v : Word Stochastic α} (hw : w.Seedless)
    (hrun : (replaceAll params w).run.run g = (.ok v, g')) : g' = g.advance (drawn w) :=
  (replaceAll_leaves hrun).trans (leave_seedless hw g)

theorem successor_seedless (p : Stochastic α) :
    Drawing.Meets (fun _ => True) Word.Seedless (successor params p) := by
  iterate 4 refine Drawing.bind_any fun _ => ?_
  cases p with
  | twig remaining =>
      change Drawing.Meets _ _ (if remaining < 0 then _ else _)
      split
      · exact Drawing.meets_pure Word.seedless_nil
      · iterate 3 refine Drawing.bind_any fun _ => ?_
        exact Drawing.meets_pure (by simp)
  | apex probability depth =>
      iterate 5 refine Drawing.bind_any fun _ => ?_
      extract_lets shoot sprout
      have hsprout : Drawing.Meets (fun _ => True) Word.Seedless sprout := by
        refine Drawing.bind_any fun u => ?_
        split
        · exact Drawing.bind_any fun _ => Drawing.meets_pure (by simp [shoot])
        · split
          · exact Drawing.meets_pure (by simp [shoot])
          · exact Drawing.meets_pure (by simp [Word.seedless_nil])
      refine hsprout.bind fun first hfirst => hsprout.bind fun second hsecond => ?_
      exact hsprout.bind fun third hthird => Drawing.meets_pure (by simp [hfirst, hsecond, hthird])

theorem seedless (params : Store α) : Derivation.Seedless Stochastic params := by
  refine seedless_of_successors successor_seedless fun i hi => ?_
  cases i with
  | advance => exact Meets.bind_any fun _ => Meets.pure nofun
  | width _ rate =>
      cases rate with
      | none => exact Meets.pure hi
      | some rate => exact Meets.pure nofun
  | _ => exact Meets.pure hi

omit [Scalar α] in
theorem start_eq_ok (h : start params = .ok w) :
    ∃ seed rest, params.integer "seed" = .ok seed ∧
      w = .instruction (.reseed seed.toUInt64) :: rest ∧ Word.Seedless rest := by
  simp only [start, bind_eq_ok] at h
  obtain ⟨seed, hseed, width, -, rate, -, height, -, orientation, -, probability, -, h⟩ := h
  cases h
  exact ⟨seed, _, hseed, rfl, by simp [Word.seedless_nil, Word.seedless_cons, Word.op, Word.grow]⟩

def drawnBy (params : Store α) (l : LSystem Stochastic α) (n : Nat) : Nat :=
  ∑ i ∈ Finset.range n, drawn ((LSystem.iterate params i).run.run l).2.word

theorem drawnBy_succ {l l' : LSystem Stochastic α} (n : Nat)
    (h : (LSystem.step params).run.run l = (.ok (), l')) :
    drawnBy params l (n + 1) = drawn l.word + drawnBy params l' n := by
  rw [drawnBy, Finset.sum_range_succ', Nat.add_comm]
  refine congrArg₂ (· + ·) rfl (Finset.sum_congr rfl fun i _ => ?_)
  rw [LSystem.iterate_succ_run, h]

theorem step_generator {l l' : LSystem Stochastic α} (hl : l.word.Seedless)
    (hstep : (LSystem.step params).run.run l = (.ok (), l')) :
    l'.word.Seedless ∧ l'.generator = l.generator.advance (drawn l.word) := by
  have hnext := LSystem.step_eq_ok hstep
  have hword := (seedless params).replaceAll l.word l.generator
  rw [hnext] at hword
  exact ⟨hword, replaceAll_generator hl hnext⟩

theorem iterate_generator {l l' : LSystem Stochastic α} {n : Nat} (hl : l.word.Seedless)
    (hrun : (LSystem.iterate params n).run.run l = (.ok (), l')) :
    l'.word.Seedless ∧ l'.generator = l.generator.advance (drawnBy params l n) := by
  induction n generalizing l with
  | zero =>
      cases hrun
      exact ⟨hl, rfl⟩
  | succ n ih =>
      obtain ⟨m, hstep, hrest⟩ := LSystem.iterate_succ_eq_ok hrun
      obtain ⟨hm, hgenerator⟩ := step_generator hl hstep
      obtain ⟨hl', hgenerator'⟩ := ih hm hrest
      refine ⟨hl', ?_⟩
      rw [hgenerator', hgenerator, Generator.advance_advance, drawnBy_succ n hstep]

/-- The generator, at the place behind a part of a word that an axiom has grown to. -/
theorem after_generator {seed : UInt64} {rest : Word Stochastic α} (hseedless : rest.Seedless)
    {n : Nat} {place : Generator} {l : LSystem Stochastic α}
    (hrun : LSystem.after params n (.instruction (.reseed seed) :: rest) place = (.ok (), l))
    {before behind : Word Stochastic α} (hl : l.word = before ++ behind)
    (hfirst : n = 0 → before ≠ []) {found : Array (Symbol Stochastic α)}
    (hfound : (replaceOnto params #[] before).run.run l.generator = (.ok found, g')) :
    g' = (Generator.ofSeed seed).advance
      (drawnBy params { word := .instruction (.reseed seed) :: rest, generator := place } n +
        drawn before) := by
  have hdrawn (w : Word Stochastic α) : drawn (.instruction (.reseed seed) :: w) = drawn w :=
    Nat.zero_add _
  cases n with
  | zero =>
      cases hrun
      cases before with
      | nil => exact (hfirst rfl rfl).elim
      | cons s before =>
          obtain ⟨rfl, rfl⟩ := List.cons.inj hl
          rw [replaceOnto_reseed] at hfound
          rw [hdrawn, replaceOnto_generator (Word.seedless_append.mp hseedless).1 hfound]
          exact congrArg _ (Nat.zero_add _).symm
  | succ n =>
      -- the first generation runs as if the rest of the axiom stood at the start of the stream
      obtain ⟨m, hstep, hrest⟩ := LSystem.iterate_succ_eq_ok hrun
      have hnext := LSystem.step_eq_ok hstep
      rw [replaceAll_reseed] at hnext
      have hm := (seedless params).replaceAll rest (.ofSeed seed)
      rw [hnext] at hm
      obtain ⟨hword, hgenerator⟩ := iterate_generator hm hrest
      rw [hl] at hword
      rw [replaceOnto_generator (Word.seedless_append.mp hword).1 hfound, hgenerator,
        replaceAll_generator hseedless hnext, drawnBy_succ n hstep, hdrawn]
      simp only [Generator.advance_advance, Nat.add_assoc]

end Stochastic

open LSystem in
/-- The generator that a derivation starts with does not change its word. In stochastic trees every
node draws three numbers and nothing else draws; the seed is gone after one generation, and every
symbol behind it is replaced at the place of the seed's stream that counts the draws made before.
The other species draw nothing, and their words are derived part by part. -/
theorem derivation_of_parameters :
    (∀ (tree : Plant TreeSpecies α) word, tree.start = .ok word → ∀ n g g',
      Agree (after tree.parameters n word g) (after tree.parameters n word g')) ∧
    (∀ (leaf : Plant LeafSpecies α) word, leaf.start = .ok word → ∀ n g g',
      Agree (after leaf.parameters n word g) (after leaf.parameters n word g')) ∧
    (∀ (params : Store α) (s : Symbol Stochastic α),
      (∀ seed, s = .instruction (.reseed seed) → ∀ g,
        (Derivation.replace params s).run.run g = (.ok [], Generator.ofSeed seed)) ∧
      ((∀ seed, s ≠ .instruction (.reseed seed)) →
        Drawing.Takes params.Lacks (fun fault => fault = .overflow ∧ Stochastic.Deepest s)
          (Stochastic.draws s) (Derivation.replace params s))) ∧
    (∀ (params : Store α) word, Stochastic.start params = .ok word → ∀ n place,
      (0 < (after params n word place).2.generation → (after params n word place).2.word.Seedless) ∧
      ∃ seed, params.integer "seed" = .ok seed ∧
        ∀ l before behind, after params n word place = (.ok (), l) → l.word = before ++ behind →
          (n = 0 → before ≠ []) → ∀ found g,
            (Derivation.replaceOnto params #[] before).run.run l.generator = (.ok found, g) →
              g = (Generator.ofSeed seed.toUInt64).advance
                (Stochastic.drawnBy params { word, generator := place } n +
                  Stochastic.drawn before)) ∧
    (∀ tree : Plant TreeSpecies α, tree.species ≠ .stochastic →
      tree.grammar.Undrawn tree.parameters) ∧
    ∀ leaf : Plant LeafSpecies α, leaf.grammar.Undrawn leaf.parameters := by
  have hstochastic (params : Store α) (word : Word Stochastic α)
      (hword : Stochastic.start params = .ok word) (n : Nat) (g g' : Generator) :
      Agree (after params n word g) (after params n word g') := by
    obtain ⟨seed, rest, -, rfl, -⟩ := Stochastic.start_eq_ok hword
    exact agree_after_reseed seed.toUInt64 rest n g g'
  refine ⟨?_, ?_, ?_, ?_, fun tree => Plant.tree_undrawn, Plant.leaf_undrawn⟩
  · intro tree word hword n g g'
    by_cases h : tree.species = .stochastic
    · obtain ⟨species, parameters⟩ := tree
      cases h
      exact hstochastic parameters word hword n g g'
    · exact agree_after (Plant.tree_undrawn h).drawless word n g g'
  · intro leaf word hword n g g'
    exact agree_after leaf.leaf_undrawn.drawless word n g g'
  · intro params s
    refine ⟨?_, Stochastic.replace_takes params⟩
    rintro seed rfl g
    rfl
  · intro params word hword n place
    obtain ⟨seed, rest, hseed, rfl, hrest⟩ := Stochastic.start_eq_ok hword
    have hzero (h : 0 < 0) : Word.Seedless (.instruction (.reseed seed.toUInt64) :: rest) :=
      (Nat.lt_irrefl 0 h).elim
    refine ⟨seedless_iterate (Stochastic.seedless params) hzero n, seed, hseed, ?_⟩
    exact fun l before behind hrun hl hfirst found g hfound =>
      Stochastic.after_generator hrest hrun hl hfirst hfound

end Arbor
