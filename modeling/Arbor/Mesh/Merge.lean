import Arbor.Mesh.Basic

namespace Arbor.Mesh

variable {α : Type} [Scalar α]

def keptAt? (tolerance : α) (m : Mesh α) (kept : List VertexId) (v : VertexId) : Option VertexId :=
  kept.find? fun u => (m.position u - m.position v).length < tolerance

/-- A corner that lies close to a vertex already kept is replaced by the first such vertex; any
other one is kept. -/
def mergeCorner (tolerance : α) (f : FaceId) (state : List VertexId × Mesh α) (corner : Nat) :
    List VertexId × Mesh α :=
  let (kept, m) := state
  match (m.corners f)[corner]? with
  | none => (kept, m)
  | some v =>
    match keptAt? tolerance m kept v with
    | some u => if u = v then (kept, m) else (kept, m.relabel f v u)
    | none => (kept ++ [v], m)

def mergeFace (tolerance : α) (state : List VertexId × Mesh α) (f : FaceId) :
    List VertexId × Mesh α :=
  (List.range (state.2.corners f).length).foldl (mergeCorner tolerance f) state

/-- The kept vertices in the order in which they were met, and the mesh over them. -/
def mergeVertices (tolerance : α) (m : Mesh α) : List VertexId × Mesh α :=
  m.faceIds.foldl (mergeFace tolerance) ([], m)

end Arbor.Mesh
