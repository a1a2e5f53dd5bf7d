import Arbor.Fault
import Arbor.Turtle.Forest

namespace Arbor

/-- A program is obeyed by the turtle on top of a stack. What is collected comes last first. -/
structure Replay (α : Type) where
  forest : Forest α
  stack : List TurtleId
  retired : List TurtleId := []
  polygons : List (List (Vec3 α)) := []

namespace Replay

variable {α : Type} [Scalar α]

def start (pose : Pose α) : Replay α :=
  let (id, forest) := Forest.empty.spawn pose
  { forest, stack := [id] }

def onTop (change : Pose α → Pose α) (s : Replay α) : Except Obstacle (Replay α) :=
  match s.stack with
  | [] => .error .emptyStack
  | id :: _ =>
    if (s.forest.get? id).isSome then .ok { s with forest := s.forest.modifyPose id change }
    else .error .removedTurtle

/-- Retires the turtle on top and replaces it by a copy at the end of its segment. -/
def advance (elongation : α) (s : Replay α) : Except Obstacle (Replay α) :=
  match s.stack with
  | [] => .error .emptyStack
  | id :: rest =>
    let forest := s.forest.modify id fun t =>
      { t with pose := { t.pose with length := t.pose.length + elongation }, complete := true }
    match forest.spawnFrom? id with
    | none => .error .removedTurtle
    | some (next, forest) =>
      .ok { s with
        forest := forest.modifyPose next fun p => { p.moveForward with length := 0 }
        stack := next :: rest
        retired := id :: s.retired }

def push (s : Replay α) : Except Obstacle (Replay α) :=
  match s.stack with
  | [] => .error .emptyStack
  | id :: rest =>
    match s.forest.spawnFrom? id with
    | none => .error .removedTurtle
    | some (next, forest) => .ok { s with forest, stack := next :: id :: rest }

def pop (s : Replay α) : Except Obstacle (Replay α) :=
  match s.stack with
  | [] => .error .emptyStack
  | id :: rest => .ok { s with forest := s.forest.remove id, stack := rest }

def vertex (s : Replay α) : Except Obstacle (Replay α) :=
  match s.stack with
  | [] => .error .emptyStack
  | id :: _ =>
    match s.forest.get? id, s.polygons with
    | none, _ => .error .removedTurtle
    | some _, [] => .error .noOpenPolygon
    | some t, polygon :: older =>
      .ok { s with polygons := (t.pose.position :: polygon) :: older }

def step (s : Replay α) : Instruction α → Except Obstacle (Replay α)
  | .advance elongation => s.advance elongation
  | .move elongation | .grow elongation _ => s.onTop fun p => p.glide elongation
  | .width width _ => s.onTop fun p => { p with width }
  | .setLength length _ => s.onTop fun p => { p with length }
  | .push => s.push
  | .pop => s.pop
  | .roll angle => s.onTop fun p => p.roll (Scalar.radians angle)
  | .pitch angle => s.onTop fun p => p.pitch (Scalar.radians angle)
  | .turnLeft angle => s.onTop fun p => p.turn (Scalar.radians angle)
  | .turnRight angle => s.onTop fun p => p.turn (-Scalar.radians angle)
  | .verticate angle => s.onTop fun p => p.verticate (Scalar.radians angle)
  | .descend distance => s.onTop fun p => p.moveAlong ⟨0, 0, -distance⟩
  | .openPolygon => .ok { s with polygons := [] :: s.polygons }
  | .vertex => s.vertex
  | .rest | .closePolygon | .reseed _ => .ok s

def run (s : Replay α) (index : Nat) : List (Instruction α) → Except (Fault α) (Replay α)
  | [] => .ok s
  | i :: is =>
    match s.step i with
    | .ok s => run s (index + 1) is
    | .error obstacle => .error (.obstructed obstacle index i)

end Replay

structure Interpretation (α : Type) where
  forest : Forest α
  retired : List TurtleId
  polygons : List (List (Vec3 α))
deriving Inhabited

namespace Interpretation

variable {α : Type}

def pose? (out : Interpretation α) (id : TurtleId) : Option (Pose α) :=
  (out.forest.get? id).map Turtle.pose

def roots (out : Interpretation α) : List TurtleId :=
  out.retired.filter fun id => (out.forest.parent? id).isNone

end Interpretation

/-- Obeys a program from a pose. The one turtle that is left is discarded. -/
def interpret {α : Type} [Scalar α] (program : List (Instruction α)) (pose : Pose α) :
    Except (Fault α) (Interpretation α) :=
  match (Replay.start pose).run 0 program with
  | .error fault => .error fault
  | .ok s =>
    match s.stack with
    | [id] =>
      .ok {
        forest := s.forest.remove id
        retired := s.retired.reverse
        polygons := (s.polygons.map List.reverse).reverse }
    | stack => .error (.unbalanced stack.length)

end Arbor
