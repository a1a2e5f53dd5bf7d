import Arbor.Geometry.Vector
import Arbor.Random.Generator

namespace Arbor

inductive Location where
  | inside
  | surface
  | outside
deriving DecidableEq, Repr, Inhabited

def surfaceTolerance {α : Type} [Scalar α] : α := 1e-9

/-- The clearances of a point to the surfaces around a solid, positive on the inner side; the least
one decides. -/
abbrev Clearances (α : Type) := List α

namespace Clearances

variable {α : Type} [Scalar α]

def location (cs : Clearances α) : Location :=
  let nearest := Scalar.least cs
  if surfaceTolerance < nearest then .inside
  else if nearest < -surfaceTolerance then .outside
  else .surface

def depth (cs : Clearances α) : α := Scalar.greater (Scalar.least cs) 0

/-- How far the point lies behind the farthest surface that it is behind of. -/
def distance (cs : Clearances α) : α := Scalar.greatest (cs.map (- ·))

end Clearances

namespace Draw

variable {α : Type} [Scalar α]

def onDisk (center u v : Vec3 α) (radius : α) : Draw (Vec3 α) := do
  let share : α ← Draw.uniform
  let turn : α ← Draw.uniform
  let r := radius * Scalar.sqrt share
  let angle := Scalar.tau * turn
  return center + u * (r * Scalar.cos angle) + v * (r * Scalar.sin angle)

/-- The index of the weight that `target` falls into; the last index if it falls into none. -/
def indexOf (target : α) (index : Nat) : List α → Nat
  | [] => index - 1
  | w :: ws => if target < w then index else indexOf (target - w) (index + 1) ws

def weighted (weights : List α) : Draw Nat := do
  let part : α ← Draw.uniform
  return indexOf (part * weights.foldl (· + ·) 0) 0 weights

end Draw

end Arbor
