import Arbor.Proofs.WordDerivation
import Arbor.Species.Tree.Monopodial
import Arbor.Species.Tree.Stump
import Arbor.Species.Tree.Sympodial
import Arbor.Species.Tree.Ternary

namespace Arbor

variable {α : Type} [Scalar α] {params : Store α} {overrun : Prop}

namespace Monopodial

theorem successor_meets (p : Monopodial α) :
    Meets (params.Excuses overrun) (fun w => WellFormed w.program) (successor params p) := by
  refine Store.bind_double fun main => Store.bind_double fun lateral => ?_
  refine Store.bind_double fun decrease => Store.bind_double fun angle₁ => ?_
  refine Store.bind_double fun angle₂ => Store.bind_double fun divergence => ?_
  apply Meets.pure
  cases p with
  | leader => exact (wellFormed_iff _).mpr ⟨false, rfl⟩
  | right => exact (wellFormed_iff _).mpr ⟨false, rfl⟩
  | left => exact (wellFormed_iff _).mpr ⟨false, rfl⟩

omit [Scalar α] in
theorem start_meets :
    Meets (params.Excuses overrun) (fun w => WellFormed w.program) (start params) := by
  refine Store.bind_double fun orientation => Store.bind_double fun height => ?_
  refine Store.bind_double fun width => ?_
  exact Meets.pure ((wellFormed_iff _).mpr ⟨false, rfl⟩)

theorem sound : grammar.Sound params overrun :=
  Grammar.sound_of_successors (successor params) start_meets (fun _ => rfl) successor_meets
    fun _ => Meets.pure fun _ => rfl

end Monopodial

namespace Sympodial

theorem successor_meets (p : Sympodial α) :
    Meets (params.Excuses overrun) (fun w => WellFormed w.program) (successor params p) := by
  refine Store.bind_double fun ratio₁ => Store.bind_double fun ratio₂ => ?_
  refine Store.bind_double fun decrease => Store.bind_double fun angle₁ => ?_
  refine Store.bind_double fun angle₂ => ?_
  apply Meets.pure
  cases p with
  | trunk => exact (wellFormed_iff _).mpr ⟨false, rfl⟩
  | shoot => exact (wellFormed_iff _).mpr ⟨false, rfl⟩

omit [Scalar α] in
theorem start_meets :
    Meets (params.Excuses overrun) (fun w => WellFormed w.program) (start params) := by
  refine Store.bind_double fun orientation => Store.bind_double fun height => ?_
  refine Store.bind_double fun width => ?_
  exact Meets.pure ((wellFormed_iff _).mpr ⟨false, rfl⟩)

theorem sound : grammar.Sound params overrun :=
  Grammar.sound_of_successors (successor params) start_meets (fun _ => rfl) successor_meets
    fun _ => Meets.pure fun _ => rfl

end Sympodial

namespace Ternary

omit [Scalar α] in
theorem successor_meets (p : Ternary α) :
    Meets (params.Excuses overrun) (fun w => WellFormed w.program) (successor params p) := by
  refine Store.bind_double fun width => Store.bind_double fun scale => ?_
  refine Store.bind_double fun angle => Store.bind_double fun roll₁ => ?_
  refine Store.bind_double fun roll₂ => ?_
  exact Meets.pure ((wellFormed_iff _).mpr ⟨false, rfl⟩)

theorem regrow_meets (i : Instruction α) :
    Meets (params.Excuses overrun) (fun j => ∀ o : Outline, o.next? j = o.next? i)
      (regrow params i) := by
  cases i with
  | advance => exact Store.bind_double fun rate => Meets.pure fun _ => rfl
  | width _ rate =>
      cases rate with
      | none => exact Store.bind_double fun rate => Meets.pure fun _ => rfl
      | some rate => exact Meets.pure fun _ => rfl
  | _ => exact Meets.pure fun _ => rfl

omit [Scalar α] in
theorem start_meets :
    Meets (params.Excuses overrun) (fun w => WellFormed w.program) (start params) := by
  refine Store.bind_double fun width => Store.bind_double fun height => ?_
  refine Store.bind_double fun orientation => ?_
  exact Meets.pure ((wellFormed_iff _).mpr ⟨false, rfl⟩)

theorem sound : grammar.Sound params overrun :=
  Grammar.sound_of_successors (successor params) start_meets (fun _ => rfl) successor_meets
    regrow_meets

end Ternary

namespace Stump

theorem start_meets :
    Meets (params.Excuses overrun) (fun w => WellFormed w.program) (start params) := by
  refine Store.bind_double fun height => Store.bind_double fun width => ?_
  refine Store.bind_double fun azimuth => Store.bind_double fun elevation => ?_
  exact Meets.pure ((wellFormed_iff _).mpr ⟨false, rfl⟩)

theorem sound : grammar.Sound params overrun :=
  Grammar.sound_of_successors nofun start_meets nofun nofun fun _ => Meets.pure fun _ => rfl

end Stump

end Arbor
