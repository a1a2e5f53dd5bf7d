import Arbor.Turtle.Pose

namespace Arbor

abbrev TurtleId := Nat

structure Turtle (α : Type) where
  pose : Pose α
  complete : Bool := false
  parent : Option TurtleId := none
  children : List TurtleId := []
deriving DecidableEq, Repr

/-- Turtles live in numbered slots. A removed turtle leaves its slot empty. -/
structure Forest (α : Type) where
  slots : Array (Option (Turtle α)) := #[]
deriving DecidableEq, Repr

namespace Forest

variable {α : Type}

def empty : Forest α := {}

instance : Inhabited (Forest α) := ⟨empty⟩

def get? (f : Forest α) (id : TurtleId) : Option (Turtle α) := (f.slots[id]?).join

def parent? (f : Forest α) (id : TurtleId) : Option TurtleId := (f.get? id).bind Turtle.parent

def children (f : Forest α) (id : TurtleId) : List TurtleId :=
  match f.get? id with
  | some t => t.children
  | none => []

def modify (f : Forest α) (id : TurtleId) (change : Turtle α → Turtle α) : Forest α :=
  ⟨f.slots.modify id (Option.map change)⟩

def modifyPose (f : Forest α) (id : TurtleId) (change : Pose α → Pose α) : Forest α :=
  f.modify id fun t => { t with pose := change t.pose }

def spawn (f : Forest α) (pose : Pose α) : TurtleId × Forest α :=
  (f.slots.size, ⟨f.slots.push (some { pose })⟩)

def link (f : Forest α) (parent child : TurtleId) : Forest α :=
  (f.modify child fun t => { t with parent := some parent }).modify parent fun t =>
    { t with children := t.children ++ [child] }

/-- The nearest complete turtle at or above `id`, looked for in at most `fuel` turtles. -/
def completeAbove? (f : Forest α) : Nat → TurtleId → Option TurtleId
  | 0, _ => none
  | fuel + 1, id =>
    match f.get? id with
    | none => none
    | some t =>
      if t.complete then some id
      else match t.parent with
        | some p => completeAbove? f fuel p
        | none => none

/-- Copies the pose of `source` into a new turtle, a child of the nearest complete turtle at or
above `source`. -/
def spawnFrom? (f : Forest α) (source : TurtleId) : Option (TurtleId × Forest α) :=
  match f.get? source with
  | none => none
  | some t =>
    let above? := f.completeAbove? f.slots.size source
    let (id, grown) := f.spawn t.pose
    match above? with
    | some above => some (id, grown.link above id)
    | none => some (id, grown)

def setParents (parent : Option TurtleId) : List TurtleId → Forest α → Forest α
  | [], f => f
  | id :: ids, f => setParents parent ids (f.modify id fun t => { t with parent })

/-- Takes a turtle out; its children follow the other children of its parent. -/
def remove? (f : Forest α) (id : TurtleId) : Option (Turtle α × Forest α) :=
  match f.get? id with
  | none => none
  | some t =>
    let orphaned := setParents t.parent t.children ⟨f.slots.setIfInBounds id none⟩
    let spliced := match t.parent with
      | some p => orphaned.modify p fun q =>
          { q with children := q.children.filter (· != id) ++ t.children }
      | none => orphaned
    some ({ t with parent := none, children := [] }, spliced)

def remove (f : Forest α) (id : TurtleId) : Forest α :=
  match f.remove? id with
  | some (_, f) => f
  | none => f

def living (f : Forest α) : List (TurtleId × Turtle α) :=
  f.slots.toList.zipIdx.filterMap fun (slot, id) => slot.map fun t => (id, t)

def size (f : Forest α) : Nat := f.living.length

def isEmpty (f : Forest α) : Bool := f.size == 0

def roots (f : Forest α) : List TurtleId :=
  (f.living.filter fun (_, t) => t.parent.isNone).map (·.1)

end Forest

end Arbor
