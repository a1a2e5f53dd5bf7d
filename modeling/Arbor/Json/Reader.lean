import Arbor.Json.Token

namespace Arbor.Json

/-- The fields of a record as they are read; a key that holds half of a surrogate pair is `none`. -/
abbrev ReadFields := List (Option String × Json)

/-- A record with a key that denotes nothing is as unreadable as such a text. -/
def ofReadFields (fields : ReadFields) : Json :=
  match fields.mapM fun (key, v) => key.map fun key => (key, v) with
  | some fields => .record fields
  | none => .unreadable

/-- A list or record with a place for its next value; what is before it comes last first. -/
inductive Frame where
  | list (done : List Json)
  | record (done : ReadFields) (key : Option String)

inductive Mode where
  | value
  | firstElement
  | firstKey
  | key (done : ReadFields)
  | colon (done : ReadFields) (key : Option String)
  | afterElement (done : List Json)
  | afterField (done : ReadFields)
  | finished (value : Json)

structure Assembly where
  frames : List Frame
  mode : Mode

namespace Assembly

def deliver (frames : List Frame) (v : Json) : Assembly :=
  match frames with
  | [] => ⟨[], .finished v⟩
  | .list done :: frames => ⟨frames, .afterElement (v :: done)⟩
  | .record done key :: frames => ⟨frames, .afterField ((key, v) :: done)⟩

def enter (frames : List Frame) : Token → Option Assembly
  | .openList => some ⟨frames, .firstElement⟩
  | .openRecord => some ⟨frames, .firstKey⟩
  | .word chars => (ofWord? chars).map (deliver frames)
  | .text (some s) => some (deliver frames (.text s))
  | .text none => some (deliver frames .unreadable)
  | _ => none

def push (a : Assembly) (t : Token) : Option Assembly :=
  match a.mode, t with
  | .value, t => enter a.frames t
  | .firstElement, .closeList => some (deliver a.frames (.list []))
  | .firstElement, t => enter (.list [] :: a.frames) t
  | .firstKey, .closeRecord => some (deliver a.frames (.record []))
  | .firstKey, .text key => some ⟨a.frames, .colon [] key⟩
  | .key done, .text key => some ⟨a.frames, .colon done key⟩
  | .colon done key, .colon => some ⟨.record done key :: a.frames, .value⟩
  | .afterElement done, .comma => some ⟨.list done :: a.frames, .value⟩
  | .afterElement done, .closeList => some (deliver a.frames (.list done.reverse))
  | .afterField done, .comma => some ⟨a.frames, .key done⟩
  | .afterField done, .closeRecord => some (deliver a.frames (ofReadFields done.reverse))
  | _, _ => none

def pushAll : List Token → Assembly → Option Assembly
  | [], a => some a
  | t :: ts, a => match a.push t with
    | some a => pushAll ts a
    | none => none

end Assembly

def parse? (text : String) : Option Json :=
  match tokens? text with
  | none => none
  | some ts =>
    match Assembly.pushAll ts ⟨[], .value⟩ with
    | some ⟨_, .finished v⟩ => some v
    | _ => none

end Arbor.Json
