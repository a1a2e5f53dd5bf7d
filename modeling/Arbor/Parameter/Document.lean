import Arbor.Json.Decoding
import Arbor.Json.Printer
import Arbor.Json.Reader
import Arbor.Parameter.Store

namespace Arbor

namespace Parameter

def toJson {ν : Type} (write : ν → Json) (p : Parameter ν) : Json :=
  .record [("name", .text p.name), ("value", write p.value), ("minimum", write p.minimum),
    ("maximum", write p.maximum)]

def ofJson? {ν : Type} (read : Json → Option ν) (v : Json) : Option (Parameter ν) := do
  match ← v.fields? ["name", "value", "minimum", "maximum"] with
  | [some name, some value, some minimum, some maximum] =>
    some ⟨← name.text?, ← read value, ← read minimum, ← read maximum⟩
  | _ => none

end Parameter

namespace Store

def toJson (s : Store Float) : Json :=
  .record [("doubles", .list (s.doubles.map (Parameter.toJson .double))),
    ("integers", .list (s.integers.map (Parameter.toJson fun n => .integer n.toInt)))]

def rows? {ν : Type} (read : Json → Option ν) (v : Json) : Option (Rows ν) := do
  (← v.list?).mapM (Parameter.ofJson? read)

def ofJson? (v : Json) : Option (Store Float) := do
  match ← v.fields? ["doubles", "integers"] with
  | [doubles, integers] =>
    some ⟨← Json.orDefault? [] (rows? Json.double?) doubles,
      ← Json.orDefault? [] (rows? Json.int64?) integers⟩
  | _ => none

def document (s : Store Float) : String := s.toJson.pretty

def ofDocument (text : String) : Except (Fault Float) (Store Float) := do
  match (Json.parse? text).bind ofJson? with
  | none => throw .malformedDocument
  | some s =>
    s.validate
    return s

end Store

end Arbor
