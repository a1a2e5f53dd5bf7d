import Arbor.Scalar

namespace Arbor

/-- A leaf is a sandwich between glass covers with an air volume around it. -/
inductive Layer where
  | front
  | sensitive
  | back
  | envelope
deriving DecidableEq, Repr

namespace Layer

variable {α : Type} [Scalar α]

def offsets : Layer → α × α
  | front => (0.5, 0.03)
  | sensitive => (0.03, 0.0)
  | back => (0.0, -0.5)
  | envelope => (0.5, -0.5)

def frontOffset (l : Layer) (thickness : α) : α := l.offsets.1 * thickness

def backOffset (l : Layer) (thickness : α) : α := l.offsets.2 * thickness

end Layer

end Arbor
