import Arbor.Geometry.Ray
import Arbor.Mesh.Basic
import Arbor.Solid.Location

namespace Arbor

structure Tessellation (α : Type) where
  facets : List (Triangle α) := []
  /-- For every facet the area up to and with it. -/
  cumulativeArea : List α := []
  bounds : Box α
deriving DecidableEq, Repr

namespace Tessellation

variable {α : Type} [Scalar α]

def runningArea (total : α) : List (Triangle α) → List α
  | [] => []
  | t :: ts =>
    let total := total + t.area
    total :: runningArea total ts

def corners (facets : List (Triangle α)) : List (Vec3 α) := facets.flatMap Triangle.toList

def ofFacets (facets : List (Triangle α)) : Tessellation α where
  facets
  cumulativeArea := runningArea 0 facets
  bounds := (Box.ofPoints? (corners facets)).getD ⟨0, 0⟩

def ofMesh (m : Mesh α) : Tessellation α := ofFacets m.triangles

def empty : Tessellation α := ofFacets []

instance : Inhabited (Tessellation α) := ⟨empty⟩

def isEmpty (s : Tessellation α) : Bool := s.facets.isEmpty

def area (s : Tessellation α) : α := s.cumulativeArea.getLastD 0

def extents? (s : Tessellation α) : Option (Box α) := Box.ofPoints? (corners s.facets)

def facetDistance (s : Tessellation α) (p : Vec3 α) : α :=
  Scalar.least (s.facets.map fun t => t.distance p)

/-- Directions along which no edge of a plant is likely to run. -/
def probes : List (Vec3 α) :=
  [⟨0.4319344, 0.2591606, 0.8638688⟩, ⟨-0.2672612, 0.5345225, 0.8017837⟩,
    ⟨0.8728716, -0.2182179, -0.4364358⟩]

def crossesOdd (s : Tessellation α) (p direction : Vec3 α) : Bool :=
  let r : Ray α := ⟨p, direction⟩
  s.facets.countP (fun t => (r.meetTriangle? t).isSome) % 2 == 1

/-- A point is inside if most of three rays from it cross the triangles an odd number of times. -/
def location (s : Tessellation α) (p : Vec3 α) : Location :=
  if s.isEmpty || !s.bounds.contains p surfaceTolerance then .outside
  else if s.facetDistance p ≤ surfaceTolerance then .surface
  else if 2 ≤ probes.countP (s.crossesOdd p) then .inside
  else .outside

def distanceToIn (s : Tessellation α) (p : Vec3 α) : α :=
  if s.location p = .outside ∧ ¬s.isEmpty then s.facetDistance p else 0

def distanceToOut (s : Tessellation α) (p : Vec3 α) : α :=
  if s.location p = .inside then s.facetDistance p else 0

def facetAt (s : Tessellation α) (target : α) : Nat :=
  min (s.cumulativeArea.takeWhile fun area => area ≤ target).length (s.facets.length - 1)

/-- A point of a random facet, with a probability proportional to its area; the center of the
bounds if there is no facet. -/
def pointOnSurface (s : Tessellation α) : Draw (Vec3 α) := do
  if s.isEmpty then return s.bounds.center
  let part : α ← Draw.uniform
  let u : α ← Draw.uniform
  let q : α ← Draw.uniform
  let t := s.facets.getD (s.facetAt (part * s.area)) ⟨0, 0, 0⟩
  let r := Scalar.sqrt u
  return t.a * (1 - r) + t.b * (r * (1 - q)) + t.c * (r * q)

end Tessellation

end Arbor
