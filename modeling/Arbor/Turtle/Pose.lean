import Arbor.Geometry.Vector

namespace Arbor

structure Pose (α : Type) where
  position : Vec3 α
  orientation : Vec3 α
  left : Vec3 α
  width : α
  length : α
deriving DecidableEq, Repr, Inhabited

namespace Pose

variable {α : Type} [Scalar α]

def ofFrame (position orientation left : Vec3 α) : Pose α := ⟨position, orientation, left, 0, 0⟩

def start : Pose α := ofFrame 0 Vec3.vertical (Vec3.orthogonal Vec3.vertical)

def endPoint (p : Pose α) : Vec3 α := p.position + p.orientation.withLength p.length

def moveForward (p : Pose α) : Pose α := { p with position := p.endPoint }

def moveAlong (p : Pose α) (displacement : Vec3 α) : Pose α :=
  { p with position := p.position + displacement }

def glide (p : Pose α) (elongation : α) : Pose α :=
  { { p with length := p.length + elongation }.moveForward with length := 0 }

def turn (p : Pose α) (radians : α) : Pose α :=
  { p with
    orientation := p.orientation.rotateAbout Vec3.vertical radians
    left := p.left.rotateAbout Vec3.vertical radians }

def roll (p : Pose α) (radians : α) : Pose α :=
  { p with left := p.left.rotateAbout p.orientation radians }

def pitch (p : Pose α) (radians : α) : Pose α :=
  { p with orientation := p.orientation.rotateAbout p.left radians }

/-- Pitches one way or the other, whichever brings the heading closer to the vertical. -/
def verticate (p : Pose α) (radians : α) : Pose α :=
  let up := p.pitch radians
  let down := p.pitch (-radians)
  if up.orientation.angleBetween Vec3.vertical < down.orientation.angleBetween Vec3.vertical then up
  else down

end Pose

end Arbor
