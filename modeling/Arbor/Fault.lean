import Arbor.Scalar.Double
import Arbor.Grammar.Instruction

namespace Arbor

inductive ParameterKind where
  | double
  | integer
  | any
deriving DecidableEq, Repr

inductive PlantKind where
  | tree
  | leaf
deriving DecidableEq, Repr

inductive Obstacle where
  | emptyStack
  | removedTurtle
  | noOpenPolygon
deriving DecidableEq, Repr

/-- A fault names the cause; `Fault.message` is the only place that puts it into words. -/
inductive Fault (α : Type) where
  | missingParameter (kind : ParameterKind) (name : String)
  | invertedRange (name : String) (minimum maximum : α)
  | unknownSpecies (kind : PlantKind) (name : String)
  | duplicateSpecies (kind : PlantKind) (name : String)
  | obstructed (obstacle : Obstacle) (index : Nat) (instruction : Instruction α)
  | unbalanced (turtles : Nat)
  | notTriangle (face vertices : Nat)
  | notInvertible (face vertices : Nat)
  | fractionalBound (name : String)
  | malformedDocument
  | unreadableFile
  | emptyInterval
  | outOfBounds
  | overflow
  | tooWide
deriving DecidableEq, Repr

def ParameterKind.text : ParameterKind → String
  | double => "double"
  | integer => "integer"
  | any => "any"

def PlantKind.text : PlantKind → String
  | tree => "tree"
  | leaf => "leaf"

def Obstacle.text : Obstacle → String
  | emptyStack => "turtle stack is empty"
  | removedTurtle => "active turtle was removed"
  | noOpenPolygon => "vertex emitted with no open polygon"

namespace Fault

def structural (text : String) : String := "Structural contract violation: " ++ text

def message : Fault Float → String
  | missingParameter kind name =>
    "Parameter \"" ++ name ++ "\" does not exist (" ++ kind.text ++ " namespace)"
  | invertedRange name minimum maximum =>
    "Invalid range for \"" ++ name ++ "\": minimum " ++ NumberStyle.plain.shortest minimum ++
      " is above maximum " ++ NumberStyle.plain.shortest maximum
  | unknownSpecies kind name => "Cannot find " ++ kind.text ++ " with name = " ++ name
  | duplicateSpecies kind name =>
    "Cannot record two " ++ kind.text ++ " constructors with the same name = " ++ name
  | obstructed obstacle index instruction =>
    structural (obstacle.text ++ " at instruction " ++ toString index ++ " (" ++
      instruction.text ++ ")")
  | unbalanced turtles =>
    structural (toString turtles ++ " turtles left on the stack after interpretation")
  | notTriangle face vertices =>
    structural ("face " ++ toString face ++ " has " ++ toString vertices ++
      " vertices, expected a triangle")
  | notInvertible face vertices =>
    structural ("cannot invert face " ++ toString face ++ " with " ++ toString vertices ++
      " vertices")
  | fractionalBound name =>
    "Configuration error: integer parameter \"" ++ name ++ "\" has a fractional bound"
  | malformedDocument => "JSON error: malformed document"
  | unreadableFile => "IO error: unreadable file"
  | emptyInterval => "empty interval"
  | outOfBounds => "index out of bounds"
  | overflow => "count out of range"
  | tooWide => "column too wide"

end Fault

end Arbor
