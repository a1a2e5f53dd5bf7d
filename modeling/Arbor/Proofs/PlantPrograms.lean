import Arbor.Leaf.Pattern
import Arbor.Proofs.Acceptance
import Arbor.Proofs.CountingTrees
import Arbor.Proofs.LeafPrograms
import Arbor.Proofs.TreePrograms

namespace Arbor

variable {α : Type} [Scalar α]

namespace Plant

/-- Only helical trees subtract a parameter from their counts. -/
def Overruns (tree : Plant TreeSpecies α) : Prop :=
  tree.species = .helical ∧ Helical.Overruns tree.parameters

theorem tree_sound (tree : Plant TreeSpecies α) :
    tree.grammar.Sound tree.parameters tree.Overruns := by
  obtain ⟨species, parameters⟩ := tree
  cases species with
  | helical =>
      refine Meets.mono Helical.sound (fun _ => id) fun fault hfault => ?_
      exact hfault.imp_right fun h => ⟨h.1, rfl, h.2⟩
  | monopodial => exact Monopodial.sound
  | stochastic => exact Stochastic.sound
  | stump => exact Stump.sound
  | sympodial => exact Sympodial.sound
  | ternary => exact Ternary.sound

theorem leaf_sound (leaf : Plant LeafSpecies α) : leaf.grammar.Sound leaf.parameters False := by
  obtain ⟨species, parameters⟩ := leaf
  cases species with
  | cordate => exact Cordate.sound
  | planar => exact Planar.sound
  | rose => exact Pinnate.sound
  | simple => exact Pinnate.sound

variable {σ : Type} [Species σ] {overrun : Prop}

theorem accepted {p : Plant σ α} (h : p.grammar.Sound p.parameters overrun)
    {program : List (Instruction α)} (hp : p.program = .ok program) (pose : Pose α) :
    ∃ out, interpret program pose = .ok out := by
  have hmeets : Meets (p.parameters.Excuses overrun) WellFormed p.program :=
    Meets.map h fun _ => id
  rw [hp] at hmeets
  obtain ⟨drawing, hrun⟩ := (wellFormed_iff program).mp hmeets
  exact interpret_of_run pose hrun

theorem excused {p : Plant σ α} (h : p.grammar.Sound p.parameters overrun) {fault : Fault α}
    (hp : p.program = .error fault) : p.parameters.Excuses overrun fault := by
  have hmeets : Meets (p.parameters.Excuses overrun) (fun _ => True) p.program :=
    Meets.map h fun _ _ => trivial
  rw [hp] at hmeets
  exact hmeets

theorem grow_error {tree : Plant TreeSpecies α} {fault : Fault α} (h : tree.grow = .error fault) :
    tree.program = .error fault := by
  unfold grow at h
  cases hp : tree.program with
  | error fault' =>
      rw [hp] at h
      cases h
      rfl
  | ok program =>
      obtain ⟨out, hout⟩ := accepted tree.tree_sound hp Pose.start
      rw [hp] at h
      cases hout.symm.trans h

theorem fails_of_overruns {tree : Plant TreeSpecies α} (h : tree.Overruns) :
    ∃ fault, tree.program = .error fault := by
  obtain ⟨species, parameters⟩ := tree
  obtain ⟨rfl, hover⟩ := h
  have hfails := Helical.fails_of_overruns hover
  cases hp : program (⟨.helical, parameters⟩ : Plant TreeSpecies α) with
  | error fault => exact ⟨fault, rfl⟩
  | ok instructions =>
      have hmeets : Meets (fun _ => True) (fun _ => False)
          (program (⟨.helical, parameters⟩ : Plant TreeSpecies α)) := Meets.map hfails fun _ => id
      rw [hp] at hmeets
      exact hmeets.elim

end Plant

theorem LeafPattern.program_ofPlant {leaf : Plant LeafSpecies α} {pattern : LeafPattern α}
    (h : ofPlant leaf = .ok pattern) : leaf.program = .ok pattern.program := by
  unfold ofPlant at h
  cases hp : leaf.program with
  | error fault =>
      rw [hp] at h
      cases h
  | ok program =>
      rw [hp] at h
      cases ht : leaf.parameters.double "thickness" with
      | error fault =>
          rw [ht] at h
          cases h
      | ok thickness =>
          rw [ht] at h
          cases h
          rfl

/-- Whatever a species expands to is accepted at every pose. Growing fails where a parameter is
missing, and where a helical tree overruns its counts. -/
theorem expansions_accepted :
    (∀ (tree : Plant TreeSpecies α) program, tree.program = .ok program →
      ∀ pose, ∃ out, interpret program pose = .ok out) ∧
    (∀ (leaf : Plant LeafSpecies α) program, leaf.program = .ok program →
      ∀ pose, ∃ out, interpret program pose = .ok out) ∧
    (∀ (leaf : Plant LeafSpecies α) pattern, LeafPattern.ofPlant leaf = .ok pattern →
      ∀ pose, ∃ surface, pattern.surface pose = .ok surface) ∧
    (∀ (leaf : Plant LeafSpecies α) fault, leaf.program = .error fault →
      leaf.parameters.Lacks fault) ∧
    (∀ (tree : Plant TreeSpecies α) fault, tree.grow = .error fault →
      tree.program = .error fault ∧
        (tree.parameters.Lacks fault ∨ fault = .overflow ∧ tree.Overruns)) ∧
    ∀ tree : Plant TreeSpecies α, tree.Overruns → ∃ fault, tree.grow = .error fault := by
  refine ⟨?_, ?_, ?_, ?_, ?_, ?_⟩
  · exact fun tree program h => Plant.accepted tree.tree_sound h
  · exact fun leaf program h => Plant.accepted leaf.leaf_sound h
  · intro leaf pattern h pose
    have hprogram := LeafPattern.program_ofPlant h
    obtain ⟨out, hout⟩ :=
      Plant.accepted leaf.leaf_sound hprogram (LeafPattern.startPose pose)
    exact ⟨out.polygons.filter LeafPattern.isUsable, by rw [LeafPattern.surface, hout]; rfl⟩
  · intro leaf fault h
    exact (Plant.excused leaf.leaf_sound h).resolve_right And.right
  · intro tree fault h
    have hprogram := Plant.grow_error h
    exact ⟨hprogram, Plant.excused tree.tree_sound hprogram⟩
  · intro tree h
    obtain ⟨fault, hfault⟩ := Plant.fails_of_overruns h
    exact ⟨fault, by rw [Plant.grow, hfault]; rfl⟩

end Arbor
