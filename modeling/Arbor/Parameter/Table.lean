import Arbor.Parameter.Store
import Arbor.Text.Padding

namespace Arbor.Store

def nameColumn : Nat := 17

def valueColumn : Nat := 10

/-- The width of the name column: that of the longest name in bytes, and at least `nameColumn`. -/
def nameWidth (s : Store Float) : Nat :=
  (s.doubles.map (·.name) ++ s.integers.map (·.name)).foldl (fun w n => max w n.utf8ByteSize)
    nameColumn

def border (width : Nat) : String :=
  " " ++ String.ofList (List.replicate (width + 3 * valueColumn + 13) '-') ++ "\n"

def tableRow (width : Nat) (name value minimum maximum : String) : String :=
  " | " ++ padLeft width name ++ " : " ++ padLeft valueColumn value ++ " | " ++
    padLeft valueColumn minimum ++ " | " ++ padLeft valueColumn maximum ++ " |\n"

def rowsText {ν : Type} (text : ν → String) (width : Nat) (rows : Rows ν) : String :=
  rows.foldl (fun out p =>
    out ++ tableRow width p.name (text p.value) (text p.minimum) (text p.maximum)) ""

def tableText (s : Store Float) (width : Nat) : String :=
  let border := border width
  let header (title : String) := tableRow width title "Value" "Minimum" "Maximum"
  border ++ header "Double Parameter" ++ border ++ rowsText compact width s.doubles ++
    border ++ header "Integer Parameter" ++ border ++
    rowsText (fun n : Int64 => toString n.toInt) width s.integers ++ border

def table (s : Store Float) : Except (Fault Float) String :=
  if s.nameWidth ≤ widestColumn then .ok (s.tableText s.nameWidth) else .error .tooWide

end Arbor.Store
