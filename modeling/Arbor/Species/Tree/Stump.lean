import Arbor.Grammar.Derivation

namespace Arbor

inductive Stump (α : Type) : Type
deriving DecidableEq, Repr

namespace Stump

open Word

variable {α : Type} [Scalar α]

def defaults : Store α := Store.ofTable
  [("initialHeight", 0.5, 0.1, 1.0),
    ("initialWidth", 0.05, 0.01, 0.1),
    ("initialAzimuth", 180.0, 0.0, 360.0),
    ("initialElevation", 45.0, 0.0, 90.0)]
  [("iterationNumber", 0, 0, 0)]

def start (params : Store α) : Except (Fault α) (Word Stump α) := do
  let height ← params.double "initialHeight"
  let width ← params.double "initialWidth"
  let azimuth ← params.double "initialAzimuth"
  let elevation ← params.double "initialElevation"
  return op (.width width none) ++ op (.advance height) ++ op (.roll azimuth) ++
    op (.pitch (90.0 - elevation)) ++ op (.advance height)

instance : Dialect Stump where
  successor _ p := nomatch p
  regrow _ i := .ok i
  toCall p := nomatch p
  ofCall? _ := none

def grammar : Grammar := ⟨Stump, inferInstance, start⟩

end Stump

end Arbor
