import Arbor.Assembly.Volume

namespace Arbor

structure Metrics (α : Type) where
  sensitiveArea : α
  leaves : Nat
  rejectedLeaves : Nat
  branches : Nat
  reach : Vec3 α
  worldRadius : α

namespace Metrics

variable {α : Type}

def ofRadius [Scalar α] (worldRadius : α) : Metrics α :=
  { sensitiveArea := 0, leaves := 0, rejectedLeaves := 0, branches := 0, reach := 0, worldRadius }

def candidateLeaves (m : Metrics α) : Nat := m.leaves + m.rejectedLeaves

end Metrics

structure Structure (α : Type) where
  world : Volume α
  metrics : Metrics α

namespace Structure

variable {α : Type}

/-- The radius of a spherical world; of any other one the farthest coordinate. -/
def radiusOf [Scalar α] : Shape α → α
  | .orb s => s.radius
  | s => let reach := s.bounds.maxAbs
    Scalar.greater reach.x (Scalar.greater reach.y reach.z)

def ofWorld [Scalar α] (world : Volume α) : Structure α :=
  ⟨world, Metrics.ofRadius (radiusOf world.shape)⟩

def daughters (s : Structure α) : List (Volume α) := s.world.children

def add (v : Volume α) (s : Structure α) : Structure α :=
  { s with world := { s.world with children := s.world.children ++ [v] } }

def modifyMetrics (change : Metrics α → Metrics α) (s : Structure α) : Structure α :=
  { s with metrics := change s.metrics }

def named (s : Structure α) (name : String) : List (Volume α) :=
  s.daughters.filter fun v => v.name == name

def emit {m : Type → Type} [Monad m] {η : Type} (place : Volume α → Option η → m η)
    (s : Structure α) : m (List η) := do
  let world ← place s.world none
  let below ← Volume.emitAll place world s.daughters
  return world :: below

def summary [Scalar α] (s : Structure α) : List Nat × MaterialSummary α :=
  (s.emit MaterialSummary.place).run {}

end Structure

end Arbor
