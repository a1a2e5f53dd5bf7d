import Arbor.Grammar.Call

namespace Arbor

/-- The instructions that every grammar shares. Angles are in degrees. -/
inductive Instruction (α : Type) where
  | advance (elongation : α)
  | move (elongation : α)
  /-- Move like `move`; the rate scales the elongation in every generation. -/
  | grow (elongation : α) (rate : Option α)
  | width (width : α) (rate : Option α)
  | setLength (length elongation : α)
  | push
  | pop
  | roll (angle : α)
  | pitch (angle : α)
  | turnLeft (angle : α)
  | turnRight (angle : α)
  /-- Pitch up or down, whichever ends closer to the vertical. -/
  | verticate (angle : α)
  | descend (distance : α)
  | rest
  | openPolygon
  | closePolygon
  | vertex
  | reseed (seed : UInt64)
deriving DecidableEq, Repr, Inhabited

namespace Instruction

def toCall {α : Type} : Instruction α → Call α
  | advance e => .ofNumbers "F" [e]
  | move e => .ofNumbers "f" [e]
  | grow e rate => .ofNumbers "G" (e :: rate.toList)
  | width w rate => .ofNumbers "!" (w :: rate.toList)
  | setLength l e => .ofNumbers "*" [l, e]
  | push => ⟨"[", []⟩
  | pop => ⟨"]", []⟩
  | roll a => .ofNumbers "/" [a]
  | pitch a => .ofNumbers "&" [a]
  | turnLeft a => .ofNumbers "+" [a]
  | turnRight a => .ofNumbers "-" [a]
  | verticate a => .ofNumbers "V" [a]
  | descend d => .ofNumbers "D" [d]
  | rest => ⟨"$", []⟩
  | openPolygon => ⟨"\x7b", []⟩
  | closePolygon => ⟨"\x7d", []⟩
  | vertex => ⟨".", []⟩
  | reseed seed => ⟨"RandomSeed", [.count seed.toNat]⟩

def ofCall? {α : Type} [Scalar α] (c : Call α) : Option (Instruction α) :=
  match c.letter, c.arguments with
  | "F", [e] => some (advance e.toScalar)
  | "f", [e] => some (move e.toScalar)
  | "G", [e] => some (grow e.toScalar none)
  | "G", [e, rate] => some (grow e.toScalar (some rate.toScalar))
  | "!", [w] => some (width w.toScalar none)
  | "!", [w, rate] => some (width w.toScalar (some rate.toScalar))
  | "*", [l, e] => some (setLength l.toScalar e.toScalar)
  | "[", [] => some push
  | "]", [] => some pop
  | "/", [a] => some (roll a.toScalar)
  | "&", [a] => some (pitch a.toScalar)
  | "+", [a] => some (turnLeft a.toScalar)
  | "-", [a] => some (turnRight a.toScalar)
  | "V", [a] => some (verticate a.toScalar)
  | "D", [d] => some (descend d.toScalar)
  | "$", [] => some rest
  | "\x7b", [] => some openPolygon
  | "\x7d", [] => some closePolygon
  | ".", [] => some vertex
  | "RandomSeed", [n] => n.count?.map fun n => reseed n.toNat.toUInt64
  | _, _ => none

def text (i : Instruction Float) : String := i.toCall.text

end Instruction

end Arbor
