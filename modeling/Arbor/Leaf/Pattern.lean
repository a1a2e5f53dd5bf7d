import Arbor.Leaf.Layer
import Arbor.Mesh.Shell
import Arbor.Solid.Tessellation
import Arbor.Species.Plant

namespace Arbor

structure LeafPattern (α : Type) where
  species : LeafSpecies
  program : List (Instruction α)
  thickness : α

structure LeafShells (α : Type) where
  front : Tessellation α
  sensitive : Tessellation α
  back : Tessellation α
  envelope : Tessellation α
  /-- The area of the front and the sides of the sensitive layer. -/
  sensitiveArea : α

namespace LeafPattern

variable {α : Type} [Scalar α]

def ofPlant (leaf : Plant LeafSpecies α) : Except (Fault α) (LeafPattern α) := do
  let program ← leaf.program
  let thickness ← leaf.parameters.double "thickness"
  return { species := leaf.species, program, thickness }

def startPose (pose : Pose α) : Pose α :=
  Pose.ofFrame (pose.position + pose.orientation * pose.length) pose.orientation pose.left

def filterTolerance : α := 1e-4

def isUsable : List (Vec3 α) → Bool
  | [a, b, c] => !(⟨a, b, c⟩ : Triangle α).hasCoincidentCorners filterTolerance
  | _ => false

def surface (leaf : LeafPattern α) (pose : Pose α) : Except (Fault α) (Surface α) := do
  let out ← interpret leaf.program (startPose pose)
  return out.polygons.filter isUsable

def polygonArea : List (Vec3 α) → α
  | [a, b, c] => (⟨a, b, c⟩ : Triangle α).area
  | _ => 0

def surfaceArea (leaf : LeafPattern α) (pose : Pose α) : Except (Fault α) α := do
  return (← leaf.surface pose).foldl (fun total p => total + polygonArea p) 0

def layer (leaf : LeafPattern α) (surface : Surface α) (l : Layer) :
    Except (Fault α) (Tessellation α) :=
  (Surface.extrapolate surface (l.frontOffset leaf.thickness) (l.backOffset leaf.thickness)).map
    Tessellation.ofMesh

def envelope (leaf : LeafPattern α) (pose : Pose α) : Except (Fault α) (Tessellation α) := do
  leaf.layer (← leaf.surface pose) .envelope

def extents? (leaf : LeafPattern α) (pose : Pose α) : Except (Fault α) (Option (Box α)) :=
  (leaf.envelope pose).map Tessellation.extents?

def shells (leaf : LeafPattern α) (pose : Pose α) : Except (Fault α) (LeafShells α) := do
  let surface ← leaf.surface pose
  let front ← leaf.layer surface .front
  let sensitive ← leaf.layer surface .sensitive
  let back ← leaf.layer surface .back
  let envelope ← leaf.layer surface .envelope
  let sensitiveArea ← Surface.extrapolatedArea surface (Layer.sensitive.frontOffset leaf.thickness)
    (Layer.sensitive.backOffset leaf.thickness)
  return { front, sensitive, back, envelope, sensitiveArea }

end LeafPattern

end Arbor
