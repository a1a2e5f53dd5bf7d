import Arbor.Solid.Round
import Arbor.Solid.Tessellation

namespace Arbor

inductive Shape (α : Type) where
  | orb (s : Orb α)
  | tube (s : Tube α)
  | dome (s : Dome α)
  | frustum (s : Frustum α)
  | tessellated (s : Tessellation α)
deriving DecidableEq, Repr

namespace Shape

def kind {α : Type} : Shape α → String
  | orb _ => "orb"
  | tube _ => "tube"
  | dome _ => "dome"
  | frustum _ => "frustum"
  | tessellated _ => "tessellated"

variable {α : Type} [Scalar α]

instance : Inhabited (Shape α) := ⟨tessellated .empty⟩

def location (p : Vec3 α) : Shape α → Location
  | orb s => (s.clearances p).location
  | tube s => (s.clearances p).location
  | dome s => (s.clearances p).location
  | frustum s => (s.clearances p).location
  | tessellated s => s.location p

/-- At most the distance from a point outside to the solid; zero for any other point. -/
def distanceToIn (p : Vec3 α) : Shape α → α
  | orb s => (s.clearances p).distance
  | tube s => (s.clearances p).distance
  | dome s => (s.clearances p).distance
  | frustum s => (s.clearances p).distance
  | tessellated s => s.distanceToIn p

/-- At most the distance from a point inside to the surface; zero for any other point. -/
def distanceToOut (p : Vec3 α) : Shape α → α
  | orb s => (s.clearances p).depth
  | tube s => (s.clearances p).depth
  | dome s => (s.clearances p).depth
  | frustum s => (s.clearances p).depth
  | tessellated s => s.distanceToOut p

def pointOnSurface : Shape α → Draw (Vec3 α)
  | orb s => s.pointOnSurface
  | tube s => s.pointOnSurface
  | dome s => s.pointOnSurface
  | frustum s => s.pointOnSurface
  | tessellated s => s.pointOnSurface

def bounds : Shape α → Box α
  | orb s => s.bounds
  | tube s => s.bounds
  | dome s => s.bounds
  | frustum s => s.bounds
  | tessellated s => s.bounds

def area : Shape α → α
  | orb s => s.area
  | tube s => s.area
  | dome s => s.area
  | frustum s => s.area
  | tessellated s => s.area

end Shape

end Arbor
