import Arbor.Decimal.Notation
import Arbor.Scalar

namespace Arbor

inductive Argument (α : Type) where
  | number (x : α)
  | count (n : Int)
deriving DecidableEq, Repr

namespace Argument

variable {α : Type}

def toScalar [Scalar α] : Argument α → α
  | number x => x
  | count n => Scalar.ofInt n

def count? : Argument α → Option Int
  | number _ => none
  | count n => some n

def text : Argument Float → String
  | number x => compact x
  | count n => toString n

end Argument

structure Call (α : Type) where
  letter : String
  arguments : List (Argument α) := []
deriving DecidableEq, Repr

namespace Call

def ofNumbers {α : Type} (letter : String) (xs : List α) : Call α := ⟨letter, xs.map .number⟩

def text (c : Call Float) : String :=
  match c.arguments with
  | [] => c.letter
  | arguments => c.letter ++ "(" ++ ",".intercalate (arguments.map Argument.text) ++ ")"

end Call

end Arbor
