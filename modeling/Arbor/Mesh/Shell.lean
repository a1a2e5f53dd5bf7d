import Arbor.Mesh.Merge

namespace Arbor

abbrev Surface (α : Type) := List (List (Vec3 α))

namespace Mesh

variable {α : Type} [Scalar α]

def edges (m : Mesh α) : List (VertexId × VertexId) :=
  (m.faceIds.filter fun f => !m.isDegenerate f degenerateTolerance).flatMap fun f =>
    match m.corners f with
    | [a, b, c] => [(a, b), (b, c), (c, a)]
    | _ => []

def sameEdge (e d : VertexId × VertexId) : Bool := d == e || d == e.swap

/-- The edges that no other edge repeats in either direction. -/
def boundaryEdges (m : Mesh α) : List (VertexId × VertexId) :=
  let edges := m.edges
  edges.filter fun e => edges.countP (sameEdge e) == 1

/-- Adds a triangle, wound so that it does not face against `outward`. -/
def addFacing (outward : Vec3 α) (m : Mesh α) (corners : List (Vec3 α)) :
    Except (Fault α) (Mesh α) := do
  let (f, m) := m.addPolygon corners
  if outward.dot (← m.faceNormal f) < 0 then m.invert f else return m

def addSkirt (source : Mesh α) (front back : α) (skirt : Mesh α) (edge : VertexId × VertexId) :
    Except (Fault α) (Mesh α) := do
  let (v, w) := edge
  let outward ← source.edgeNormal v w
  let n ← source.vertexNormal v
  let k ← source.vertexNormal w
  let front₁ := source.position v + n * front
  let front₂ := source.position w + k * front
  let back₁ := source.position v + n * back
  let back₂ := source.position w + k * back
  [[front₁, back₁, front₂], [front₂, back₁, back₂]].foldlM (addFacing outward) skirt

def edgeSurface (source : Mesh α) (front back : α) : Except (Fault α) (Mesh α) :=
  source.boundaryEdges.foldlM (addSkirt source front back) {}

def invertAll (m : Mesh α) : Except (Fault α) (Mesh α) :=
  m.faceIds.foldlM (fun m f => m.invert f) m

def shellArea (m : Mesh α) : Except (Fault α) α :=
  m.faceIds.foldlM (fun total f => do
    let area ← m.faceArea f
    return if m.isDegenerate f degenerateTolerance then total else total + area) 0

end Mesh

namespace Surface

variable {α : Type} [Scalar α]

def merged (surface : Surface α) : List VertexId × Mesh α :=
  (Mesh.ofPolygons surface).mergeVertices Mesh.mergeTolerance

/-- The shell between two offsets: front faces, back faces, skirt. -/
def extrapolate (surface : Surface α) (front back : α) : Except (Fault α) (Mesh α) := do
  let (kept, source) := merged surface
  let frontCopy ← source.offsetAlongNormals kept front
  let backCopy ← (← source.offsetAlongNormals kept back).invertAll
  let skirt ← source.edgeSurface front back
  return (frontCopy.append backCopy).append skirt

def extrapolatedArea (surface : Surface α) (front back : α) : Except (Fault α) α := do
  let (kept, source) := merged surface
  let frontCopy ← source.offsetAlongNormals kept front
  let skirt ← source.edgeSurface front back
  return (← frontCopy.shellArea) + (← skirt.shellArea)

end Surface

end Arbor
