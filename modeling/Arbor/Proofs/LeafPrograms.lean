import Arbor.Proofs.WordDerivation
import Arbor.Species.Leaf.Cordate
import Arbor.Species.Leaf.Pinnate

namespace Arbor

variable {α : Type} [Scalar α] {params : Store α} {overrun : Prop} {generations : Nat}

namespace Cordate

theorem successor_meets (p : Cordate α) :
    Meets (params.Excuses overrun) (fun w => WellFormed w.program) (successor params p) := by
  cases p with
  | left direction =>
      refine Store.bind_double fun curl => Store.bind_double fun divergence => ?_
      exact Meets.pure ((wellFormed_iff _).mpr ⟨true, rfl⟩)
  | right direction =>
      refine Store.bind_double fun curl => Store.bind_double fun divergence => ?_
      exact Meets.pure ((wellFormed_iff _).mpr ⟨true, rfl⟩)
  | midrib =>
      refine Store.bind_double fun rate => ?_
      exact Meets.pure ((wellFormed_iff _).mpr ⟨false, rfl⟩)

theorem start_meets :
    Meets (params.Excuses overrun) (fun w => WellFormed w.program) (start params) := by
  refine Store.bind_double fun angle => Store.bind_double fun stem => ?_
  exact Meets.pure ((wellFormed_iff _).mpr ⟨false, rfl⟩)

theorem sound : grammar.Sound params overrun :=
  Grammar.sound_of_successors (successor params) start_meets (fun _ => rfl) successor_meets
    fun _ => Meets.pure fun _ => rfl

end Cordate

theorem Instruction.next?_scaleGrowth (i : Instruction α) (o : Outline) :
    o.next? i.scaleGrowth = o.next? i := by
  cases i with
  | grow elongation rate => cases rate <;> rfl
  | _ => rfl

namespace Planar

theorem half_wellFormed (edge rate : α) : WellFormed (half edge rate).program := by
  refine (wellFormed_iff _).mpr ⟨true, ?_⟩
  simp [half, Word.polygon, Outline.run, Outline.next?]

theorem start_meets :
    Meets (params.Excuses overrun) (fun w => WellFormed w.program) (start params) := by
  refine Store.bind_double fun edge => Store.bind_double fun rate => ?_
  refine Store.bind_double fun offset => Store.bind_double fun angle => ?_
  apply Meets.pure
  have hhalf := half_wellFormed edge rate
  have hmove : WellFormed [Instruction.grow offset (some 1)] := .singleton fun _ => rfl
  have hroll (angle : α) : WellFormed [Instruction.roll angle] := .singleton fun _ => rfl
  simp only [Word.program_append, Word.program_op, Word.program_branch]
  exact ((hmove.append (hroll angle)).append hhalf.enclose).append ((hroll _).append hhalf).enclose

theorem sound : grammar.Sound params overrun :=
  Grammar.sound_of_successors nofun start_meets nofun nofun
    fun i => Meets.pure i.next?_scaleGrowth

end Planar

namespace Pinnate

/-- A triangle is opened in one branch of the fan and closed in the next. -/
theorem fan_wellFormed (lateral back left right : α) (rate rate' : Option α) (time : α) :
    WellFormed (fan (.grow lateral rate) (.grow back rate') (.pitch left) (.pitch right)
      time).program := by
  refine (wellFormed_iff _).mpr ⟨true, ?_⟩
  simp [fan, Outline.run, Outline.next?]

theorem successor_meets (p : Pinnate α) :
    Meets (params.Excuses overrun) (fun w => WellFormed w.program) (successor params p) := by
  refine Store.bind_double fun length => Store.bind_double fun rate => ?_
  cases p with
  | vein potential =>
      refine Store.bind_double fun decrease => ?_
      exact Meets.pure ((wellFormed_iff _).mpr ⟨false, rfl⟩)
  | apex time =>
      refine Store.bind_double fun main => Store.bind_double fun growth => ?_
      refine Store.bind_double fun divergence => ?_
      apply Meets.pure
      have hfan := fan_wellFormed length (-main) (-divergence) divergence (some rate) (some growth)
        time
      split
      · rw [Word.program_append]
        exact WellFormed.append ((wellFormed_iff _).mpr ⟨false, rfl⟩) hfan
      · exact hfan

theorem start_meets :
    Meets (params.Excuses overrun) (fun w => WellFormed w.program) (start params) := by
  refine Store.bind_double fun angle => ?_
  exact Meets.pure ((wellFormed_iff _).mpr ⟨false, rfl⟩)

theorem sound : grammar.Sound params overrun :=
  Grammar.sound_of_successors (successor params) start_meets (fun _ => rfl) successor_meets
    fun i => Meets.pure i.next?_scaleGrowth

end Pinnate

end Arbor
