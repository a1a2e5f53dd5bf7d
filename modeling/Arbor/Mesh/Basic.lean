import Arbor.Fault
import Arbor.Geometry.Triangle

namespace Arbor

abbrev VertexId := Nat

abbrev FaceId := Nat

structure Vertex (α : Type) where
  position : Vec3 α
  /-- The faces with this corner, each once, in order of registration. -/
  containing : List FaceId := []
deriving DecidableEq, Repr

structure Mesh (α : Type) where
  vertices : Array (Vertex α) := #[]
  faces : Array (List VertexId) := #[]
deriving DecidableEq, Repr, Inhabited

namespace Mesh

variable {α : Type} [Scalar α]

def mergeTolerance : α := 1e-8

def degenerateTolerance : α := 1e-7

def position (m : Mesh α) (v : VertexId) : Vec3 α :=
  match m.vertices[v]? with
  | some x => x.position
  | none => 0

def containing (m : Mesh α) (v : VertexId) : List FaceId :=
  match m.vertices[v]? with
  | some x => x.containing
  | none => []

def corners (m : Mesh α) (f : FaceId) : List VertexId := m.faces[f]?.getD []

def faceIds (m : Mesh α) : List FaceId := List.range m.faces.size

def requireVertex (m : Mesh α) (v : VertexId) : Except (Fault α) Unit :=
  if v < m.vertices.size then .ok () else .error .outOfBounds

def requireFace (m : Mesh α) (f : FaceId) : Except (Fault α) Unit :=
  if f < m.faces.size then .ok () else .error .outOfBounds

def addVertex (p : Vec3 α) (m : Mesh α) : VertexId × Mesh α :=
  (m.vertices.size, { m with vertices := m.vertices.push { position := p } })

def modifyVertex (v : VertexId) (change : Vertex α → Vertex α) (m : Mesh α) : Mesh α :=
  { m with vertices := m.vertices.modify v change }

def register (f : FaceId) (v : VertexId) (m : Mesh α) : Mesh α :=
  m.modifyVertex v fun x =>
    if x.containing.contains f then x else { x with containing := x.containing ++ [f] }

def deregister (f : FaceId) (v : VertexId) (m : Mesh α) : Mesh α :=
  m.modifyVertex v fun x => { x with containing := x.containing.filter (· != f) }

def pushFace (corners : List VertexId) (m : Mesh α) : FaceId × Mesh α :=
  let f := m.faces.size
  (f, corners.foldl (fun m v => m.register f v) { m with faces := m.faces.push corners })

def addFace (corners : List VertexId) (m : Mesh α) : Except (Fault α) (FaceId × Mesh α) := do
  corners.forM m.requireVertex
  return m.pushFace corners

def addPolygon (points : List (Vec3 α)) (m : Mesh α) : FaceId × Mesh α :=
  let first := m.vertices.size
  (points.foldl (fun m p => (m.addVertex p).2) m).pushFace (List.range' first points.length)

def ofPolygons (polygons : List (List (Vec3 α))) : Mesh α :=
  polygons.foldl (fun m p => (m.addPolygon p).2) {}

def append (m other : Mesh α) : Mesh α :=
  let base := m.vertices.size
  let placed := other.vertices.foldl (fun m x => (m.addVertex x.position).2) m
  other.faces.foldl (fun m corners => (m.pushFace (corners.map (· + base))).2) placed

def triangleOf? (m : Mesh α) : List VertexId → Option (Triangle α)
  | [a, b, c] => some ⟨m.position a, m.position b, m.position c⟩
  | _ => none

def triangle (m : Mesh α) (f : FaceId) : Except (Fault α) (Triangle α) :=
  match m.faces[f]? with
  | none => .error .outOfBounds
  | some corners =>
    match m.triangleOf? corners with
    | some t => .ok t
    | none => .error (.notTriangle f corners.length)

def faceNormal (m : Mesh α) (f : FaceId) : Except (Fault α) (Vec3 α) :=
  (m.triangle f).map Triangle.normal

def faceArea (m : Mesh α) (f : FaceId) : Except (Fault α) α := (m.triangle f).map Triangle.area

/-- Whether a face is no triangle, or one with coincident corners. -/
def isDegenerate (m : Mesh α) (f : FaceId) (tolerance : α) : Bool :=
  match m.triangleOf? (m.corners f) with
  | some t => t.hasCoincidentCorners tolerance
  | none => true

def area (m : Mesh α) : Except (Fault α) α :=
  m.faceIds.foldlM (fun total f => do return total + (← m.faceArea f)) 0

def triangles (m : Mesh α) : List (Triangle α) :=
  (m.faceIds.filter fun f => !m.isDegenerate f degenerateTolerance).filterMap fun f =>
    m.triangleOf? (m.corners f)

/-- The mean of the normals of the faces around a vertex, as a unit vector. -/
def vertexNormal (m : Mesh α) (v : VertexId) : Except (Fault α) (Vec3 α) := do
  m.requireVertex v
  let sum ← (m.containing v).foldlM (fun sum f => do return sum + (← m.faceNormal f)) (0 : Vec3 α)
  return sum.normalizeOrZero

/-- The direction from the edge `v`-`w` outwards, in the plane of the first face around `v` that is
also around `w`; zero if there is none. -/
def edgeNormal (m : Mesh α) (v w : VertexId) : Except (Fault α) (Vec3 α) := do
  m.requireVertex v
  if (m.containing v).isEmpty then return 0
  m.requireVertex w
  match (m.containing v).find? fun f => (m.containing w).contains f with
  | none => return 0
  | some f =>
    let along := (m.position w - m.position v).normalizeOrZero
    let candidate := ((← m.faceNormal f).cross along).normalizeOrZero
    let isInward (u : VertexId) : Bool :=
      u != v && u != w && 0 ≤ (m.position u - m.position v).normalizeOrZero.dot candidate
    return if (m.corners f).any isInward then -candidate else candidate

def moveVertex (v : VertexId) (p : Vec3 α) (m : Mesh α) : Mesh α :=
  m.modifyVertex v fun x => { x with position := p }

def setPosition (v : VertexId) (p : Vec3 α) (m : Mesh α) : Except (Fault α) (Mesh α) := do
  m.requireVertex v
  return m.moveVertex v p

def invert (f : FaceId) (m : Mesh α) : Except (Fault α) (Mesh α) :=
  match m.faces[f]? with
  | none => .error .outOfBounds
  | some [a, b, c] => .ok { m with faces := m.faces.setIfInBounds f [a, c, b] }
  | some corners => .error (.notInvertible f corners.length)

def relabel (f : FaceId) (old new : VertexId) (m : Mesh α) : Mesh α :=
  let moved := (m.deregister f old).register f new
  { moved with faces := moved.faces.modify f (List.map fun v => if v = old then new else v) }

def replaceVertex (f : FaceId) (old new : VertexId) (m : Mesh α) : Except (Fault α) (Mesh α) := do
  m.requireVertex old
  m.requireVertex new
  m.requireFace f
  return m.relabel f old new

/-- Moves vertices along their normals, which are all taken before a vertex moves. -/
def offsetAlongNormals (vs : List VertexId) (distance : α) (m : Mesh α) :
    Except (Fault α) (Mesh α) := do
  let moved ← vs.mapM fun v => do
    let normal ← m.vertexNormal v
    return (v, m.position v + normal * distance)
  return moved.foldl (fun m (v, p) => m.moveVertex v p) m

end Mesh

end Arbor
