import Arbor.Geometry.Box
import Arbor.Geometry.Triangle

namespace Arbor

structure Ray (α : Type) where
  origin : Vec3 α
  direction : Vec3 α
deriving DecidableEq, Repr

namespace Ray

variable {α : Type} [Scalar α]

def inverse (r : Ray α) : Vec3 α := r.direction.map (1 / ·)

def point (r : Ray α) (t : α) : Vec3 α := r.origin + r.direction * t

def meetBox? (r : Ray α) (b : Box α) : Option (α × α) :=
  let s := (b.low - r.origin).map₂ (· * ·) r.inverse
  let t := (b.high - r.origin).map₂ (· * ·) r.inverse
  let enter := s.map₂ Scalar.lesser t
  let leave := s.map₂ Scalar.greater t
  let near := Scalar.greater (Scalar.greater enter.x enter.y) enter.z
  let far := Scalar.lesser (Scalar.lesser leave.x leave.y) leave.z
  if near ≤ far ∧ 0 ≤ far then some (Scalar.greater near 0, far) else none

/-- Below this determinant a ray counts as parallel to a triangle. -/
def parallelEpsilon : α := 1e-15

/-- The parameter at which the ray hits a triangle in front of its origin. -/
def meetTriangle? (r : Ray α) (t : Triangle α) : Option α :=
  let edge₁ := t.b - t.a
  let edge₂ := t.c - t.a
  let p := r.direction.cross edge₂
  let determinant := edge₁.dot p
  if Scalar.abs determinant < parallelEpsilon then none
  else
    let inverse := 1 / determinant
    let s := r.origin - t.a
    let u := s.dot p * inverse
    if ¬(0 ≤ u ∧ u ≤ 1) then none
    else
      let q := s.cross edge₁
      let v := r.direction.dot q * inverse
      if v < 0 ∨ 1 < u + v then none
      else
        let distance := edge₂.dot q * inverse
        if 0 < distance then some distance else none

end Ray

end Arbor
