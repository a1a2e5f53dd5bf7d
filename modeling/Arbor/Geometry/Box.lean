import Arbor.Geometry.Vector

namespace Arbor

structure Box (α : Type) where
  low : Vec3 α
  high : Vec3 α
deriving DecidableEq, Repr, Inhabited

namespace Box

variable {α : Type} [Scalar α]

def ofPoint (p : Vec3 α) : Box α := ⟨p, p⟩

def ofCenter (center half : Vec3 α) : Box α := ⟨center - half, center + half⟩

def expand (b : Box α) (p : Vec3 α) : Box α :=
  ⟨b.low.map₂ Scalar.lesser p, b.high.map₂ Scalar.greater p⟩

def ofPoints? : List (Vec3 α) → Option (Box α)
  | [] => none
  | p :: ps => some (ps.foldl expand (ofPoint p))

def merge (b c : Box α) : Box α :=
  ⟨b.low.map₂ Scalar.lesser c.low, b.high.map₂ Scalar.greater c.high⟩

def center (b : Box α) : Vec3 α := (b.low + b.high) * (0.5 : α)

def size (b : Box α) : Vec3 α := b.high - b.low

def maxAbs (b : Box α) : Vec3 α :=
  (b.low.map Scalar.abs).map₂ Scalar.greater (b.high.map Scalar.abs)

def contains (b : Box α) (p : Vec3 α) (margin : α) : Bool :=
  b.low.x - margin ≤ p.x && p.x ≤ b.high.x + margin &&
    b.low.y - margin ≤ p.y && p.y ≤ b.high.y + margin &&
    b.low.z - margin ≤ p.z && p.z ≤ b.high.z + margin

def intersects (b c : Box α) : Bool :=
  b.low.x ≤ c.high.x && c.low.x ≤ b.high.x &&
    b.low.y ≤ c.high.y && c.low.y ≤ b.high.y &&
    b.low.z ≤ c.high.z && c.low.z ≤ b.high.z

end Box

end Arbor
