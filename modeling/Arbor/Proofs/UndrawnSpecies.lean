import Arbor.Proofs.ContextFreeWords
import Arbor.Proofs.StalkSuccessors
import Arbor.Species.Plant

namespace Arbor

variable {α : Type} [Scalar α] {params : Store α}

structure Grammar.Undrawn (g : Grammar) (params : Store α) : Prop where
  drawless : Derivation.Drawless g.Production params
  unmoved : ∀ w, g.start params = .ok w → ∀ n place,
    (LSystem.after params n w place).2.generator = place
  contextFree : LSystem.ContextFree g.Production params

namespace Grammar

/-- For grammars that only look up parameters it is enough to look for seeds. -/
theorem undrawn_of_successors {g : Grammar}
    (x : g.Production α → Except (Fault α) (Word g.Production α))
    (hlift : ∀ p, Dialect.successor params p = liftM (x p))
    (hstart : Meets (fun _ => True) Word.Seedless (g.start params))
    (hsuccessor : ∀ p, Meets (fun _ => True) Word.Seedless (x p))
    (hregrow : ∀ i, (∀ seed, i ≠ .reseed seed) →
      Meets (fun _ => True) (fun j => ∀ seed, j ≠ .reseed seed)
        (Dialect.regrow g.Production params i)) :
    g.Undrawn params := by
  have hdrawless : Derivation.Drawless g.Production params :=
    Derivation.drawless_of_lift x hlift
  have hkeep : Derivation.Seedless g.Production params :=
    Derivation.seedless_of_successors (fun p => hlift p ▸ Drawing.meets_lift (hsuccessor p)) hregrow
  refine ⟨hdrawless, fun w hw n place => ?_, LSystem.contextFree_of_drawless hdrawless⟩
  rw [hw] at hstart
  exact LSystem.generator_iterate (l := { word := w, generator := place }) hdrawless hkeep hstart n

end Grammar

namespace Monopodial

theorem successor_seedless (p : Monopodial α) :
    Meets (fun _ => True) Word.Seedless (successor params p) := by
  iterate 6 refine Meets.bind_any fun _ => ?_
  apply Meets.pure
  cases p <;> simp

omit [Scalar α] in
theorem start_seedless : Meets (fun _ => True) Word.Seedless (start params) := by
  iterate 3 refine Meets.bind_any fun _ => ?_
  exact Meets.pure (by simp)

theorem undrawn : grammar.Undrawn params :=
  Grammar.undrawn_of_successors (successor params) (fun _ => rfl) start_seedless successor_seedless
    fun _ hi => Meets.pure hi

end Monopodial

namespace Sympodial

theorem successor_seedless (p : Sympodial α) :
    Meets (fun _ => True) Word.Seedless (successor params p) := by
  iterate 5 refine Meets.bind_any fun _ => ?_
  apply Meets.pure
  cases p <;> simp

omit [Scalar α] in
theorem start_seedless : Meets (fun _ => True) Word.Seedless (start params) := by
  iterate 3 refine Meets.bind_any fun _ => ?_
  exact Meets.pure (by simp)

theorem undrawn : grammar.Undrawn params :=
  Grammar.undrawn_of_successors (successor params) (fun _ => rfl) start_seedless successor_seedless
    fun _ hi => Meets.pure hi

end Sympodial

namespace Ternary

omit [Scalar α] in
theorem successor_seedless (p : Ternary α) :
    Meets (fun _ => True) Word.Seedless (successor params p) := by
  iterate 5 refine Meets.bind_any fun _ => ?_
  exact Meets.pure (by simp)

theorem regrow_seedless (i : Instruction α) (hi : ∀ seed, i ≠ .reseed seed) :
    Meets (fun _ => True) (fun j => ∀ seed, j ≠ .reseed seed) (regrow params i) := by
  cases i with
  | advance => exact Meets.bind_any fun _ => Meets.pure nofun
  | width _ rate =>
      cases rate with
      | none => exact Meets.bind_any fun _ => Meets.pure nofun
      | some rate => exact Meets.pure hi
  | _ => exact Meets.pure hi

omit [Scalar α] in
theorem start_seedless : Meets (fun _ => True) Word.Seedless (start params) := by
  iterate 3 refine Meets.bind_any fun _ => ?_
  exact Meets.pure (by simp)

theorem undrawn : grammar.Undrawn params :=
  Grammar.undrawn_of_successors (successor params) (fun _ => rfl) start_seedless successor_seedless
    regrow_seedless

end Ternary

namespace Stump

theorem start_seedless : Meets (fun _ => True) Word.Seedless (start params) := by
  iterate 4 refine Meets.bind_any fun _ => ?_
  exact Meets.pure (by simp)

theorem undrawn : grammar.Undrawn params :=
  Grammar.undrawn_of_successors nofun nofun start_seedless nofun fun _ hi => Meets.pure hi

end Stump

namespace Helical

theorem start_seedless : Meets (fun _ => True) Word.Seedless (start params) := by
  iterate 7 refine Meets.bind_any fun _ => ?_
  refine Meets.pure (Word.seedless_append.mpr ⟨by simp, Word.seedless_flatMap fun i => ?_⟩)
  simp

theorem successor_seedless (p : Helical α) :
    Meets (fun _ => True) Word.Seedless (successor params p) := by
  refine (successor_sprouts p).mono (fun w hw => ?_) fun _ => id
  cases hw <;> simp [segment, onward]

theorem undrawn : grammar.Undrawn params := by
  refine Grammar.undrawn_of_successors (successor params) (fun _ => rfl) start_seedless
    successor_seedless fun i hi => ?_
  cases i with
  | setLength => exact Meets.pure nofun
  | _ => exact Meets.pure hi

end Helical

namespace Cordate

theorem start_seedless : Meets (fun _ => True) Word.Seedless (start params) := by
  iterate 2 refine Meets.bind_any fun _ => ?_
  exact Meets.pure (by simp)

theorem successor_seedless (p : Cordate α) :
    Meets (fun _ => True) Word.Seedless (successor params p) := by
  cases p with
  | midrib => exact Meets.bind_any fun _ => Meets.pure (by simp)
  | left => exact Meets.bind_any fun _ => Meets.bind_any fun _ => Meets.pure (by simp)
  | right => exact Meets.bind_any fun _ => Meets.bind_any fun _ => Meets.pure (by simp)

theorem undrawn : grammar.Undrawn params :=
  Grammar.undrawn_of_successors (successor params) (fun _ => rfl) start_seedless successor_seedless
    fun _ hi => Meets.pure hi

end Cordate

theorem Instruction.scaleGrowth_ne_reseed {i : Instruction α} (hi : ∀ seed, i ≠ .reseed seed)
    (seed : UInt64) : i.scaleGrowth ≠ .reseed seed := by
  cases i with
  | grow _ rate => cases rate <;> nofun
  | _ => exact hi seed

namespace Planar

theorem start_seedless : Meets (fun _ => True) Word.Seedless (start params) := by
  iterate 4 refine Meets.bind_any fun _ => ?_
  exact Meets.pure (by simp [half, Word.polygon])

theorem undrawn : grammar.Undrawn params :=
  Grammar.undrawn_of_successors nofun nofun start_seedless nofun
    fun _ hi => Meets.pure (Instruction.scaleGrowth_ne_reseed hi)

end Planar

namespace Pinnate

theorem start_seedless : Meets (fun _ => True) Word.Seedless (start params) :=
  Meets.bind_any fun _ => Meets.pure (by simp)

theorem successor_seedless (p : Pinnate α) :
    Meets (fun _ => True) Word.Seedless (successor params p) := by
  refine Meets.bind_any fun _ => Meets.bind_any fun _ => ?_
  cases p with
  | vein potential => exact Meets.bind_any fun _ => Meets.pure (by simp)
  | apex time =>
      iterate 3 refine Meets.bind_any fun _ => ?_
      apply Meets.pure
      split <;> simp [fan]

theorem undrawn : grammar.Undrawn params :=
  Grammar.undrawn_of_successors (successor params) (fun _ => rfl) start_seedless successor_seedless
    fun _ hi => Meets.pure (Instruction.scaleGrowth_ne_reseed hi)

end Pinnate

namespace Plant

theorem tree_undrawn {tree : Plant TreeSpecies α} (h : tree.species ≠ .stochastic) :
    tree.grammar.Undrawn tree.parameters := by
  obtain ⟨species, parameters⟩ := tree
  cases species with
  | helical => exact Helical.undrawn
  | monopodial => exact Monopodial.undrawn
  | stochastic => exact (h rfl).elim
  | stump => exact Stump.undrawn
  | sympodial => exact Sympodial.undrawn
  | ternary => exact Ternary.undrawn

theorem leaf_undrawn (leaf : Plant LeafSpecies α) : leaf.grammar.Undrawn leaf.parameters := by
  obtain ⟨species, parameters⟩ := leaf
  cases species with
  | cordate => exact Cordate.undrawn
  | planar => exact Planar.undrawn
  | rose => exact Pinnate.undrawn
  | simple => exact Pinnate.undrawn

end Plant

end Arbor
