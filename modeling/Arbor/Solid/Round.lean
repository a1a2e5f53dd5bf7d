import Arbor.Geometry.Box
import Arbor.Solid.Location

namespace Arbor

variable {α : Type}

structure Orb (α : Type) where
  center : Vec3 α
  radius : α
deriving DecidableEq, Repr

structure Tube (α : Type) where
  center : Vec3 α
  radius : α
  halfHeight : α
deriving DecidableEq, Repr

/-- The lower half of a sphere, with the flat face on top. -/
structure Dome (α : Type) where
  center : Vec3 α
  radius : α
deriving DecidableEq, Repr

/-- A cone cut between two disks. The start radius applies below the center, against the axis. -/
structure Frustum (α : Type) where
  center : Vec3 α
  axis : Vec3 α
  halfLength : α
  startRadius : α
  endRadius : α
deriving DecidableEq, Repr

variable [Scalar α]

def Vec3.splat (x : α) : Vec3 α := ⟨x, x, x⟩

def Vec3.unitX : Vec3 α := ⟨1, 0, 0⟩

def Vec3.unitY : Vec3 α := ⟨0, 1, 0⟩

def spherePoint (z angle : α) : Vec3 α :=
  let r := Scalar.sqrt (Scalar.greater (1 - z * z) 0)
  ⟨r * Scalar.cos angle, r * Scalar.sin angle, z⟩

namespace Orb

def clearances (s : Orb α) (p : Vec3 α) : Clearances α := [s.radius - (p - s.center).length]

def pointOnSurface (s : Orb α) : Draw (Vec3 α) := do
  let z : α ← Draw.uniform
  let turn : α ← Draw.uniform
  return s.center + spherePoint (Scalar.ofNat 2 * z - 1) (Scalar.tau * turn) * s.radius

def bounds (s : Orb α) : Box α := Box.ofCenter s.center (Vec3.splat s.radius)

def area (s : Orb α) : α := Scalar.ofNat 4 * Scalar.pi * s.radius * s.radius

end Orb

namespace Tube

def clearances (s : Tube α) (p : Vec3 α) : Clearances α :=
  let d := p - s.center
  [s.halfHeight - Scalar.abs d.z, s.radius - d.perp]

def pointOnSurface (s : Tube α) : Draw (Vec3 α) := do
  let cap := Scalar.pi * s.radius * s.radius
  let side := Scalar.tau * s.radius * Scalar.ofNat 2 * s.halfHeight
  let up := (Vec3.vertical : Vec3 α) * s.halfHeight
  match ← Draw.weighted [cap, cap, side] with
  | 0 => Draw.onDisk (s.center - up) Vec3.unitX Vec3.unitY s.radius
  | 1 => Draw.onDisk (s.center + up) Vec3.unitX Vec3.unitY s.radius
  | _ =>
    let turn : α ← Draw.uniform
    let height : α ← Draw.uniform
    let angle := Scalar.tau * turn
    let z := (Scalar.ofNat 2 * height - 1) * s.halfHeight
    let offset : Vec3 α := ⟨s.radius * Scalar.cos angle, s.radius * Scalar.sin angle, z⟩
    return s.center + offset

def bounds (s : Tube α) : Box α := Box.ofCenter s.center ⟨s.radius, s.radius, s.halfHeight⟩

def area (s : Tube α) : α :=
  Scalar.tau * s.radius * (s.radius + Scalar.ofNat 2 * s.halfHeight)

end Tube

namespace Dome

def clearances (s : Dome α) (p : Vec3 α) : Clearances α :=
  let d := p - s.center
  [s.radius - d.length, -d.z]

def pointOnSurface (s : Dome α) : Draw (Vec3 α) := do
  let bowl := Scalar.tau * s.radius * s.radius
  let lid := Scalar.pi * s.radius * s.radius
  if (← Draw.weighted [bowl, lid]) = 1 then
    Draw.onDisk s.center Vec3.unitX Vec3.unitY s.radius
  else
    -- heights on a sphere are uniform
    let depth : α ← Draw.uniform
    let turn : α ← Draw.uniform
    return s.center + spherePoint (-depth) (Scalar.tau * turn) * s.radius

def bounds (s : Dome α) : Box α :=
  ⟨s.center - Vec3.splat s.radius, s.center + ⟨s.radius, s.radius, 0⟩⟩

def area (s : Dome α) : α := Scalar.ofNat 3 * Scalar.pi * s.radius * s.radius

end Dome

namespace Frustum

/-- The frustum with its first disk around `start` that extends along `direction`. -/
def along (start direction : Vec3 α) (length startRadius endRadius : α) : Frustum α :=
  let axis := direction.normalizeOrZero
  let halfLength := length / Scalar.ofNat 2
  { center := start + axis * halfLength, axis, halfLength, startRadius, endRadius }

def isCylinder (s : Frustum α) : Bool := s.startRadius == s.endRadius

def radiusAt (s : Frustum α) (z : α) : α :=
  if s.halfLength ≤ 0 then Scalar.greater s.startRadius s.endRadius
  else
    let t := (z + s.halfLength) / (Scalar.ofNat 2 * s.halfLength)
    s.startRadius + (s.endRadius - s.startRadius) * t

def slant (s : Frustum α) : α :=
  let difference := s.startRadius - s.endRadius
  Scalar.sqrt (difference * difference + Scalar.ofNat 4 * s.halfLength * s.halfLength)

def clearances (s : Frustum α) (p : Vec3 α) : Clearances α :=
  let d := p - s.center
  let z := d.dot s.axis
  let radial := (d - s.axis * z).length
  -- the side is measured at a right angle to its slope
  let cosine := if 0 < s.slant then Scalar.ofNat 2 * s.halfLength / s.slant else 1
  [s.halfLength - Scalar.abs z, (s.radiusAt z - radial) * cosine]

def base (s : Frustum α) : Vec3 α := s.center - s.axis * s.halfLength

def top (s : Frustum α) : Vec3 α := s.center + s.axis * s.halfLength

/-- Radii that differ by less than this count as equal when points are drawn. -/
def radiusEpsilon : α := 2.220446049250313e-16

/-- The part of the axis up to which the side holds the given part of its area. -/
def axialShare (s : Frustum α) (share : α) : α :=
  let r := s.startRadius
  let q := s.endRadius
  if Scalar.abs (q - r) < radiusEpsilon then share
  else (Scalar.sqrt (r * r + share * (q * q - r * r)) - r) / (q - r)

def pointOnSurface (s : Frustum α) : Draw (Vec3 α) := do
  let (u, v) := s.axis.frameFor
  let r := s.startRadius
  let q := s.endRadius
  let side := Scalar.pi * (r + q) * s.slant
  match ← Draw.weighted [Scalar.pi * r * r, Scalar.pi * q * q, side] with
  | 0 => Draw.onDisk s.base u v r
  | 1 => Draw.onDisk s.top u v q
  | _ =>
    let share : α ← Draw.uniform
    let turn : α ← Draw.uniform
    let z := (Scalar.ofNat 2 * s.axialShare share - 1) * s.halfLength
    let angle := Scalar.tau * turn
    return s.center + s.axis * z +
      (u * Scalar.cos angle + v * Scalar.sin angle) * s.radiusAt z

def bounds (s : Frustum α) : Box α :=
  let radius := Vec3.splat (Scalar.greater s.startRadius s.endRadius)
  let disks := (Box.ofPoint s.base).expand s.top
  ⟨disks.low - radius, disks.high + radius⟩

def area (s : Frustum α) : α :=
  let r := s.startRadius
  let q := s.endRadius
  Scalar.pi * (r * r + q * q + (r + q) * s.slant)

end Frustum

end Arbor
