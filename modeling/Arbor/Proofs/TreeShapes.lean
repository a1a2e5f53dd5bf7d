import Mathlib.Algebra.Ring.Nat
import Arbor.Proofs.PlantPrograms
import Arbor.Proofs.ShapedWords
import Arbor.Proofs.UndrawnSpecies

namespace Arbor

open Arbor.Derivation

namespace Bush

def complete : Nat → Bush
  | 0 => nil
  | n + 1 => node (complete n ++ complete n) nil

/-- Shoots of two segments each, three behind the first segment and behind every shoot. -/
def ternary : Nat → Bush
  | 0 => nil
  | n + 1 =>
    let shoot := node (ternary n) nil
    node (shoot ++ (shoot ++ shoot)) nil

theorem tops_complete (n : Nat) : (complete n).tops = if n = 0 then 0 else 1 := by
  cases n <;> rfl

theorem size_complete (n : Nat) : (complete n).size = 2 ^ n - 1 := by
  induction n with
  | zero => rfl
  | succ n ih =>
      have hpos : 0 < 2 ^ n := Nat.two_pow_pos n
      simp only [complete, size_node, size_append, size_nil, ih]
      omega

theorem everywhere_complete {height d n : Nat} (h : d + n = height + 1) :
    (complete n).Everywhere (fun e k => e ≤ height ∧ k = if e < height then 2 else 0) d := by
  induction n generalizing d with
  | zero => trivial
  | succ n ih =>
      have hbelow := ih (d := d + 1) (by omega)
      refine ⟨⟨by omega, ?_⟩, (everywhere_append ..).mpr ⟨hbelow, hbelow⟩, trivial⟩
      rw [tops_append, tops_complete]
      split <;> split <;> omega

theorem size_ternary (n : Nat) : (ternary n).size = 2 * 3 ^ n - 2 := by
  induction n with
  | zero => rfl
  | succ n ih =>
      have hpos : 0 < 3 ^ n := Nat.pow_pos (by decide)
      simp only [ternary, size_node, size_append, size_nil, ih]
      omega

theorem leaves_ternary_tree (n : Nat) : (node (ternary n) nil).leaves = 3 ^ n := by
  induction n with
  | zero => rfl
  | succ n ih =>
      have htops : (node (ternary n) nil).tops = 1 := rfl
      rw [ternary]
      generalize node (ternary n) nil = shoot at ih htops ⊢
      simp [htops, ih]
      omega

end Bush

variable {α : Type} [Scalar α] {params : Store α}

namespace Monopodial

theorem steady (params : Store α) : Steady Monopodial params :=
  steady_of_regrow undrawn.drawless fun _ => rfl

theorem grows (n : Nat) (p : Monopodial α) : Grows params n (Word.grow p) (.complete n) := by
  induction n generalizing p with
  | zero => exact grows_zero p
  | succ n ih =>
      refine grows_succ (x := successor params p) rfl ?_
      iterate 6 refine Meets.bind_any fun _ => ?_
      apply Meets.pure
      have h := steady params
      -- whatever the production is, both of its shoots have a generation less to go
      cases p with
      | leader length width =>
          simp only [List.append_assoc]
          refine h.grows_plain trivial nofun (h.grows_advance (h.grows_branch ?_ ?_))
          · exact h.grows_plain trivial nofun (ih _)
          · exact h.grows_plain trivial nofun (ih _)
      | right length width =>
          simp only [List.append_assoc]
          refine h.grows_plain trivial nofun (h.grows_advance (h.grows_branch ?_ (ih _)))
          exact h.grows_plain trivial nofun (h.grows_plain trivial nofun (ih _))
      | left length width =>
          simp only [List.append_assoc]
          refine h.grows_plain trivial nofun (h.grows_advance (h.grows_branch ?_ (ih _)))
          exact h.grows_plain trivial nofun (h.grows_plain trivial nofun (ih _))

theorem start_grows (n : Nat) :
    Meets (fun _ => True) (fun w => Grows params n w (.complete n)) (start params) := by
  iterate 3 refine Meets.bind_any fun _ => ?_
  exact Meets.pure ((steady params).grows_plain trivial nofun (grows n _))

end Monopodial

namespace Sympodial

theorem steady (params : Store α) : Steady Sympodial params :=
  steady_of_regrow undrawn.drawless fun _ => rfl

theorem grows (n : Nat) (p : Sympodial α) : Grows params n (Word.grow p) (.complete n) := by
  induction n generalizing p with
  | zero => exact grows_zero p
  | succ n ih =>
      refine grows_succ (x := successor params p) rfl ?_
      iterate 5 refine Meets.bind_any fun _ => ?_
      apply Meets.pure
      have h := steady params
      cases p with
      | trunk length width =>
          simp only [List.append_assoc]
          refine h.grows_plain trivial nofun (h.grows_advance (h.grows_branch ?_ ?_))
          · exact h.grows_plain trivial nofun (ih _)
          · refine h.grows_plain trivial nofun (h.grows_enclosed ?_)
            exact h.grows_plain trivial nofun (ih _)
      | shoot length width =>
          simp only [List.append_assoc]
          refine h.grows_plain trivial nofun (h.grows_advance (h.grows_branch ?_ ?_))
          · exact h.grows_plain trivial nofun (h.grows_plain trivial nofun (ih _))
          · refine h.grows_enclosed (h.grows_plain trivial nofun ?_)
            exact h.grows_plain trivial nofun (ih _)

theorem start_grows (n : Nat) :
    Meets (fun _ => True) (fun w => Grows params n w (.complete n)) (start params) := by
  iterate 3 refine Meets.bind_any fun _ => ?_
  exact Meets.pure ((steady params).grows_plain trivial nofun (grows n _))

end Sympodial

namespace Ternary

theorem steady (params : Store α) : Steady Ternary params := by
  refine ⟨undrawn.drawless, fun i j hi h => ?_⟩
  change regrow params i = .ok j at h
  cases i with
  | advance e =>
      obtain ⟨rate, -, h⟩ := bind_eq_ok.mp h
      cases h
      exact ⟨_, rfl⟩
  | width w rate =>
      cases rate with
      | none =>
          obtain ⟨rate, -, h⟩ := bind_eq_ok.mp h
          cases h
          exact ⟨trivial, nofun⟩
      | some rate =>
          cases h
          exact ⟨trivial, nofun⟩
  | _ =>
      cases h
      exact Instruction.kin_self hi

theorem grows (n : Nat) (p : Ternary α) : Grows params n (Word.grow p) (.ternary n) := by
  induction n generalizing p with
  | zero => exact grows_zero p
  | succ n ih =>
      refine grows_succ (x := successor params p) rfl ?_
      iterate 5 refine Meets.bind_any fun _ => ?_
      apply Meets.pure
      have h := steady params
      have hshoot {angle scale : α} : Grows params n
          (Word.op (.pitch angle) ++ (Word.op (.advance scale) ++ Word.grow Ternary.apex))
          (.node (.ternary n) .nil) :=
        h.grows_plain trivial nofun (h.grows_advance (ih Ternary.apex))
      simp only [List.append_assoc]
      refine h.grows_plain trivial nofun (h.grows_advance (h.grows_branch hshoot ?_))
      refine h.grows_plain trivial nofun (h.grows_branch hshoot ?_)
      exact h.grows_plain trivial nofun (h.grows_enclosed hshoot)

theorem start_grows (n : Nat) :
    Meets (fun _ => True) (fun w => Grows params n w (.node (.ternary n) .nil)) (start params) := by
  iterate 3 refine Meets.bind_any fun _ => ?_
  have h := steady params
  apply Meets.pure
  simp only [List.append_assoc]
  refine h.grows_plain trivial nofun (h.grows_advance ?_)
  exact h.grows_plain trivial nofun (grows n _)

end Ternary

namespace Interpretation

variable {out : Interpretation α}

structure CompleteBinary (out : Interpretation α) (height : Nat) : Prop where
  size : out.retired.length = 2 ^ height - 1
  root : 1 ≤ height → ∃ root, out.roots = [root]
  depth : ∀ id ∈ out.retired, ∃ d ≤ height, out.forest.Depth (some id) d
  children : ∀ id d, out.forest.Depth (some id) d →
    (out.forest.children id).length = if d < height then 2 else 0

/-- The retired turtles are a tree with a single root and so many turtles, some of which have no
children. -/
structure SingleRooted (out : Interpretation α) (size terminal : Nat) : Prop where
  root : ∃ root, out.roots = [root]
  size : out.retired.length = size
  terminal : (out.retired.filter fun id => (out.forest.children id).isEmpty).length = terminal

end Interpretation

theorem Shapes.completeBinary {program : List (Instruction α)} {height : Nat}
    (h : Shapes program (.complete height)) {pose : Pose α} {out : Interpretation α}
    (hout : Arbor.interpret program pose = .ok out) : out.CompleteBinary height := by
  have hgrown := grown_of_interpret hout
  have hfits := h.interpret hout
  have hdepth (id : TurtleId) (hid : id ∈ out.retired) :=
    hfits.everywhere (fun id hid => (hgrown.living id).mpr hid) .ground
      (Bush.everywhere_complete (Nat.add_comm 1 height)) hid
  constructor
  · rw [hfits.length_eq, Bush.size_complete]
  · intro hpos
    rw [← List.length_eq_one_iff, h.roots_length hout, Bush.tops_complete, if_neg (by omega)]
  · intro id hid
    obtain ⟨d, hd, hle, -⟩ := hdepth id hid
    exact ⟨d, hle, hd⟩
  · intro id d hd
    have hlives : out.forest.Lives id := by
      cases hd
      assumption
    obtain ⟨e, he, -, hchildren⟩ := hdepth id ((hgrown.living id).mp hlives)
    rw [hchildren, hd.unique he]

theorem Shapes.singleRooted {program : List (Instruction α)} {n : Nat}
    (h : Shapes program (.node (.ternary n) .nil)) {pose : Pose α} {out : Interpretation α}
    (hout : Arbor.interpret program pose = .ok out) :
    out.SingleRooted (2 * 3 ^ n - 1) (3 ^ n) := by
  have hfits := h.interpret hout
  constructor
  · rw [← List.length_eq_one_iff, h.roots_length hout]
    rfl
  · have hpos : 0 < 3 ^ n := Nat.pow_pos (by decide)
    rw [hfits.length_eq, Bush.size_node, Bush.size_ternary, Bush.size_nil]
    omega
  · rw [← List.countP_eq_length_filter, hfits.countP_childless, Bush.leaves_ternary_tree]

namespace Plant

theorem grow_shaped {tree : Plant TreeSpecies α} (shape : Nat → Bush)
    (hdrawn : tree.species ≠ .stochastic)
    (hstart : ∀ n, Meets (fun _ => True) (fun w => Grows tree.parameters n w (shape n)) tree.start)
    {program : List (Instruction α)} (hprogram : tree.program = .ok program) :
    ∃ m out, tree.parameters.integer "iterationNumber" = .ok m ∧ tree.grow = .ok out ∧
      Arbor.interpret program Pose.start = .ok out ∧ Shapes program (shape m.toNatClampNeg) := by
  obtain ⟨m, hm, hshapes⟩ := shapes_program (tree_undrawn hdrawn).drawless shape hstart hprogram
  obtain ⟨out, hout⟩ := accepted tree.tree_sound hprogram Pose.start
  exact ⟨m, out, hm, by rw [grow, hprogram]; exact hout, hout, hshapes⟩

end Plant

/-- Where a monopodial or sympodial tree expands it grows to a complete binary tree, as high as it
has generations. Where a ternary tree expands it grows to a tree with a single root, whose terminal
segments grow threefold in every generation. -/
theorem shapes_of_grown_trees :
    (∀ (tree : Plant TreeSpecies α) program,
      tree.species = .monopodial ∨ tree.species = .sympodial → tree.program = .ok program →
      ∃ m out, tree.parameters.integer "iterationNumber" = .ok m ∧ tree.grow = .ok out ∧
        out.CompleteBinary (max m.toInt 0).toNat) ∧
    ∀ (tree : Plant TreeSpecies α) program,
      tree.species = .ternary → tree.program = .ok program →
      ∃ m out, tree.parameters.integer "iterationNumber" = .ok m ∧ tree.grow = .ok out ∧
        out.SingleRooted (2 * 3 ^ (max m.toInt 0).toNat - 1) (3 ^ (max m.toInt 0).toNat) := by
  have hclamp (m : Int64) : (max m.toInt 0).toNat = m.toNatClampNeg := by
    rw [Int64.toNatClampNeg]
    omega
  constructor
  · intro tree program hspecies hprogram
    have hstart (n : Nat) : Meets (fun _ => True)
        (fun w => Grows tree.parameters n w (.complete n)) tree.start := by
      obtain ⟨species, parameters⟩ := tree
      rcases hspecies with h | h <;> cases h
      · exact Monopodial.start_grows n
      · exact Sympodial.start_grows n
    have hdrawn : tree.species ≠ .stochastic := by
      rcases hspecies with h | h <;> rw [h] <;> decide
    obtain ⟨m, out, hm, hgrow, hout, hshapes⟩ :=
      Plant.grow_shaped Bush.complete hdrawn hstart hprogram
    exact ⟨m, out, hm, hgrow, hclamp m ▸ hshapes.completeBinary hout⟩
  · intro tree program hspecies hprogram
    have hstart (n : Nat) : Meets (fun _ => True)
        (fun w => Grows tree.parameters n w (.node (.ternary n) .nil)) tree.start := by
      obtain ⟨species, parameters⟩ := tree
      cases hspecies
      exact Ternary.start_grows n
    have hdrawn : tree.species ≠ .stochastic := by
      rw [hspecies]
      decide
    obtain ⟨m, out, hm, hgrow, hout, hshapes⟩ :=
      Plant.grow_shaped (fun n => .node (.ternary n) .nil) hdrawn hstart hprogram
    exact ⟨m, out, hm, hgrow, hclamp m ▸ hshapes.singleRooted hout⟩

/-- Two generations of a monopodial tree, and one of a ternary tree: the trunk, the segment of its
apex and three shoots. -/
theorem shapes_of_grown_trees_young :
    let monopodial : Plant TreeSpecies Float :=
      ⟨.monopodial, .setInteger "iterationNumber" 2 Monopodial.defaults⟩
    let ternary : Plant TreeSpecies Float :=
      ⟨.ternary, .setInteger "iterationNumber" 1 Ternary.defaults⟩
    (∃ out, monopodial.grow = .ok out ∧ out.CompleteBinary 2) ∧
    ∃ out, ternary.grow = .ok out ∧ out.retired = [0, 1, 3, 5, 7] ∧ out.SingleRooted 5 3 := by
  intro monopodial ternary
  obtain ⟨hbinary, hsingle⟩ := shapes_of_grown_trees (α := Float)
  constructor
  · obtain ⟨program, hprogram⟩ : ∃ program, monopodial.program = .ok program := ⟨_, rfl⟩
    obtain ⟨m, out, hm, hout, hshape⟩ := hbinary monopodial program (.inl rfl) hprogram
    obtain rfl : 2 = m := Except.ok.inj hm
    exact ⟨out, hout, hshape⟩
  · obtain ⟨program, hprogram⟩ : ∃ program, ternary.program = .ok program := ⟨_, rfl⟩
    obtain ⟨m, out, hm, hout, hshape⟩ := hsingle ternary program rfl hprogram
    obtain rfl : 1 = m := Except.ok.inj hm
    have hretired : ternary.grow.toOption.map Interpretation.retired = some [0, 1, 3, 5, 7] := by
      decide +kernel
    rw [hout] at hretired
    exact ⟨out, hout, Option.some.inj hretired, hshape⟩

end Arbor
