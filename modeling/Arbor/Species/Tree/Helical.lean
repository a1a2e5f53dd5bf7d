import Arbor.Grammar.Count
import Arbor.Grammar.Derivation

namespace Arbor

/-- A ring of stalks spirals upwards. Stalks split at regular intervals, either into a fork or into
the stalk and a short side shoot. -/
inductive Helical (α : Type) where
  | stalk (length width angle : α) (count : Int64)
  | shoot (length width : α)
deriving DecidableEq, Repr

namespace Helical

open Word

variable {α : Type} [Scalar α]

def defaults : Store α := Store.ofTable
  [("initialLength", 0.42, 0.3, 0.7),
    ("initialWidthEven", 0.2, 0.15, 0.25),
    ("initialWidthOdd", 0.23, 0.15, 0.25),
    ("initialRadius", 0.0, 0.0, 0.6),
    ("initialOrientation", 0.0, 0.0, 360.0),
    ("elongationRate", 0.93, 0.85, 0.93),
    ("branchElongation", 0.9, 0.9, 0.95),
    ("contractionRate", 0.85, 0.7, 0.85),
    ("minimumWidth", 0.015, 0.015, 0.035),
    ("turningAngle", 15.2, 12.2, 18.2),
    ("inclinationAngle", 90.0, 70.0, 90.0),
    ("incDecRate", 5.0, 4.0, 6.0),
    ("branchingAngle", 2.8, 1.4, 3.8)]
  [("stepsBetweenSplit", 4, 4, 4),
    ("stalkPoints", 8, 2, 8),
    ("branchlessPoints", 0, 0, 0),
    ("iterationNumber", 17, 15, 18),
    ("simpleBranch", 0, 0, 0)]

def start (params : Store α) : Except (Fault α) (Word Helical α) := do
  let stalks := (← params.integer "stalkPoints").toNatClampNeg
  let radius ← params.double "initialRadius"
  let inclination ← params.double "inclinationAngle"
  let length ← params.double "initialLength"
  let even ← params.double "initialWidthEven"
  let odd ← params.double "initialWidthOdd"
  let orientation ← params.double "initialOrientation"
  let stalk (i : Nat) : Word Helical α :=
    branch (op (.roll (Scalar.ofNat i * 360.0 / Scalar.ofNat stalks)) ++ op (.pitch 90.0) ++
      op (.move radius) ++ op (.turnLeft 90.0) ++ op (.pitch (-inclination)) ++
      grow (.stalk length (if i % 2 = 0 then even else odd) 0 0))
  return op (.roll orientation) ++ (List.range stalks).flatMap stalk

def setWidth (params : Store α) (width : α) : Except (Fault α) (Instruction α) := do
  return .width (Scalar.greater width (← params.double "minimumWidth")) none

def splits? (count branchless steps : Int64) : Except (Fault α) Bool :=
  if branchless < count ∧ steps ≠ 0 then
    (Count.above branchless count).map fun grown => grown % steps == 0
  else .ok false

def successor (params : Store α) : Helical α → Except (Fault α) (Word Helical α)
  | stalk length width angle count => do
    let branchless ← params.integer "branchlessPoints"
    let steps ← params.integer "stepsBetweenSplit"
    let turning ← params.double "turningAngle"
    let elongation ← params.double "elongationRate"
    let contraction ← params.double "contractionRate"
    let next := Scalar.rem (angle + (← params.double "branchingAngle")) 360.0
    let rise ← params.double "incDecRate"
    let segment := op (.pitch rise) ++ op (← setWidth params width) ++ op (.advance length)
    let onward (width : α) (count : Int64) : Word Helical α :=
      op (.turnLeft turning) ++ grow (.stalk (length * elongation) width next count)
    if ← splits? count branchless steps then
      let simple := (← params.integer "simpleBranch") = 1
      let count ← Count.next count
      if simple then
        return segment ++ branch (op (.roll angle) ++ op (.pitch 90.0) ++
          grow (.shoot (length / 10.0) (width / 2.0))) ++ onward (width * contraction) count
      else
        let fork := onward (width * contraction * 0.8) count
        return segment ++ branch (op (.pitch angle) ++ fork) ++
          branch (op (.pitch (-angle)) ++ fork)
    else return segment ++ onward (width * contraction) (← Count.next count)
  | shoot length width => do
    let width ← setWidth params width
    let elongation ← params.double "branchElongation"
    return op width ++ op (.setLength length elongation) ++ op (.advance length)

instance : Dialect Helical where
  successor params p := successor params p
  regrow _ i := .ok <| match i with
    | .setLength length elongation => .setLength (length * elongation) elongation
    | i => i
  toCall
    | stalk length width angle count =>
      ⟨"A", [.number length, .number width, .number angle, .count count.toInt]⟩
    | shoot length width => .ofNumbers "B" [length, width]
  ofCall?
    | ⟨"A", [length, width, angle, count]⟩ => count.count?.map fun n =>
      stalk length.toScalar width.toScalar angle.toScalar (.ofInt n)
    | ⟨"B", [length, width]⟩ => some (shoot length.toScalar width.toScalar)
    | _ => none

def grammar : Grammar := ⟨Helical, inferInstance, start⟩

end Helical

end Arbor
