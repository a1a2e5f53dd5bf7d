import Arbor.Species.Leaf.Planar

namespace Arbor

/-- A growing midrib with lateral veins. Simple and rose leaves differ in their defaults only. -/
inductive Pinnate (α : Type) where
  | apex (time : α)
  | vein (potential : α)
deriving DecidableEq, Repr

namespace Pinnate

open Word

variable {α : Type} [Scalar α]

def simpleDefaults : Store α := Store.ofTable
  [("initialAngle", 90.0, 0.0, 360.0),
    ("mainInitialLength", 0.05, 0.01, 0.09),
    ("mainGrowthRate", 0.75, 0.5, 1.1),
    ("lateralInitialLength", 0.02, 0.005, 0.04),
    ("lateralGrowthRate", 0.8, 0.8, 1.3),
    ("growthPotentialDecrease", 1.0, 1.0, 1.0),
    ("divergenceAngle", 75.0, 45.0, 140.0),
    ("thickness", 0.01, 0.002, 0.06)]
  [("iterationNumber", 4, 4, 8)]

def roseDefaults : Store α := Store.ofTable
  [("initialAngle", 90.0, 0.0, 360.0),
    ("mainInitialLength", 0.2, 0.03, 0.2),
    ("mainGrowthRate", 0.9, 0.5, 0.9),
    ("lateralInitialLength", 0.05, 0.03, 0.08),
    ("lateralGrowthRate", 1.2, 0.8, 1.3),
    ("growthPotentialDecrease", 1.0, 1.0, 1.0),
    ("divergenceAngle", 71.0, 45.0, 140.0),
    ("thickness", 0.01, 0.002, 0.06)]
  [("iterationNumber", 5, 4, 8)]

def start (params : Store α) : Except (Fault α) (Word Pinnate α) := do
  let angle ← params.double "initialAngle"
  return op (.roll angle) ++ branch (grow (.apex 0))

/-- An apex this close to time zero is in its first generation. -/
def firstGeneration : α := 0.0001

/-- Four triangles around an apex, each shared between sibling branches. -/
def fan (lateral back left right : Instruction α) (time : α) : Word Pinnate α :=
  let vein : Word Pinnate α := grow (.vein time)
  let older : Word Pinnate α := grow (.vein (time - 1))
  branch (op .openPolygon ++ op left ++ vein ++ op .vertex) ++
    branch (op .vertex ++ op back ++ op .vertex ++ op .closePolygon) ++
    branch (op .openPolygon ++ op back ++ op .vertex ++ op left ++ op lateral ++ older ++
      op .vertex) ++
    branch (op left ++ vein ++ op .vertex ++ op .closePolygon) ++
    branch (grow (.apex (time + 1))) ++
    branch (op .openPolygon ++ op .vertex ++ op right ++ vein ++ op .vertex) ++
    branch (op back ++ op .vertex ++ op .closePolygon) ++
    branch (op .openPolygon ++ op back ++ op .vertex) ++
    branch (op right ++ vein ++ op .vertex) ++
    branch (op back ++ op right ++ op lateral ++ older ++ op .vertex ++ op .closePolygon)

def successor (params : Store α) (p : Pinnate α) : Except (Fault α) (Word Pinnate α) := do
  let length ← params.double "lateralInitialLength"
  let rate ← params.double "lateralGrowthRate"
  let lateral : Instruction α := .grow length (some rate)
  match p with
  | vein potential =>
    let decrease ← params.double "growthPotentialDecrease"
    return op lateral ++ grow (.vein (potential - decrease))
  | apex time =>
    let length ← params.double "mainInitialLength"
    let rate ← params.double "mainGrowthRate"
    let divergence ← params.double "divergenceAngle"
    let back : Instruction α := .grow (-length) (some rate)
    let fan := fan lateral back (.pitch (-divergence)) (.pitch divergence) time
    return if firstGeneration < Scalar.abs time then op (.grow length (some rate)) ++ fan else fan

instance : Dialect Pinnate where
  successor params p := successor params p
  regrow _ i := .ok i.scaleGrowth
  toCall
    | apex time => .ofNumbers "A" [time]
    | vein potential => .ofNumbers "B" [potential]
  ofCall?
    | ⟨"A", [time]⟩ => some (apex time.toScalar)
    | ⟨"B", [potential]⟩ => some (vein potential.toScalar)
    | _ => none

def grammar : Grammar := ⟨Pinnate, inferInstance, start⟩

end Pinnate

end Arbor
