
namespace Arbor

inductive Alignment where
  | left
  | right
  | center
deriving DecidableEq, Repr

/-- Pads `s` with `fill` to `width` characters. An odd space of a centred text goes to the right. -/
def pad (fill : Char) (alignment : Alignment) (width : Nat) (s : String) : String :=
  let space := width - s.length
  let before := match alignment with
    | .left => 0
    | .right => space
    | .center => space / 2
  String.ofList (List.replicate before fill) ++ s ++
    String.ofList (List.replicate (space - before) fill)

def widestColumn : Nat := 65535

def padColumn? (fill : Char) (alignment : Alignment) (width : Nat) (s : String) : Option String :=
  if width ≤ widestColumn then some (pad fill alignment width s) else none

def padLeft (width : Nat) (s : String) : String := pad ' ' .right width s

def padRight (width : Nat) (s : String) : String := pad ' ' .left width s

end Arbor
