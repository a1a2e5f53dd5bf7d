import Arbor.Geometry.Vector

namespace Arbor

structure Triangle (α : Type) where
  a : Vec3 α
  b : Vec3 α
  c : Vec3 α
deriving DecidableEq, Repr, Inhabited

variable {α : Type} [Scalar α]

def closestOnSegment (p a b : Vec3 α) : Vec3 α :=
  let ab := b - a
  let lengthSq := ab.lengthSq
  if (lengthSq == 0) = true then a
  else a + ab * Scalar.clamp ((p - a).dot ab / lengthSq) 0 1

/-- Whichever of `v` and `w` is closer to `p`; the first one if both are. -/
def closer (p v w : Vec3 α) : Vec3 α :=
  if (w - p).lengthSq < (v - p).lengthSq then w else v

namespace Triangle

def toList (t : Triangle α) : List (Vec3 α) := [t.a, t.b, t.c]

/-- The closest point of a triangle, by the region that `p` projects to: a corner, an edge or the
inside. -/
def closestPoint (t : Triangle α) (p : Vec3 α) : Vec3 α :=
  let ab := t.b - t.a
  let ac := t.c - t.a
  let ap := p - t.a
  let d1 := ab.dot ap
  let d2 := ac.dot ap
  if d1 ≤ 0 ∧ d2 ≤ 0 then t.a
  else
    let bp := p - t.b
    let d3 := ab.dot bp
    let d4 := ac.dot bp
    if 0 ≤ d3 ∧ d4 ≤ d3 then t.b
    else
      let vc := d1 * d4 - d3 * d2
      if vc ≤ 0 ∧ 0 ≤ d1 ∧ d3 ≤ 0 then t.a + ab * (d1 / (d1 - d3))
      else
        let cp := p - t.c
        let d5 := ab.dot cp
        let d6 := ac.dot cp
        if 0 ≤ d6 ∧ d5 ≤ d6 then t.c
        else
          let vb := d5 * d2 - d1 * d6
          if vb ≤ 0 ∧ 0 ≤ d2 ∧ d6 ≤ 0 then t.a + ac * (d2 / (d2 - d6))
          else
            let va := d3 * d6 - d5 * d4
            if va ≤ 0 ∧ 0 ≤ d4 - d3 ∧ 0 ≤ d5 - d6 then
              t.b + (t.c - t.b) * ((d4 - d3) / ((d4 - d3) + (d5 - d6)))
            else
              let denominator := va + vb + vc
              if (denominator == 0) = true then
                -- the corners are in line
                closer p (closer p (closestOnSegment p t.a t.b) (closestOnSegment p t.b t.c))
                  (closestOnSegment p t.c t.a)
              else t.a + ab * (vb / denominator) + ac * (vc / denominator)

def distance (t : Triangle α) (p : Vec3 α) : α := (t.closestPoint p - p).length

def hasCoincidentCorners (t : Triangle α) (tolerance : α) : Bool :=
  (t.a - t.b).length < tolerance || (t.b - t.c).length < tolerance ||
    (t.c - t.a).length < tolerance

/-- The unit normal on the side from which the corners run counter-clockwise. -/
def normal (t : Triangle α) : Vec3 α := ((t.c - t.b).cross (t.a - t.b)).normalizeOrZero

def area (t : Triangle α) : α := 0.5 * ((t.c - t.b).cross (t.a - t.b)).length

end Triangle

end Arbor
