import Arbor.Json.Value

namespace Arbor.Json

inductive Token where
  | openList
  | closeList
  | openRecord
  | closeRecord
  | comma
  | colon
  | word (chars : List Char)
  | text (s : Option String)

/-- What has been read of a quoted text, last character first. -/
structure Body where
  chars : List Char := []
  high : Option Nat := none
  sound : Bool := true

namespace Body

def push (b : Body) (c : Char) : Body :=
  { chars := c :: b.chars, high := none, sound := b.sound && b.high.isNone }

def unit (b : Body) (n : Nat) : Body :=
  if 0xD800 ≤ n ∧ n < 0xDC00 then { b with high := some n, sound := b.sound && b.high.isNone }
  else if 0xDC00 ≤ n ∧ n < 0xE000 then
    match b.high with
    | some h =>
      { b with
        chars := Char.ofNat (0x10000 + (h - 0xD800) * 0x400 + (n - 0xDC00)) :: b.chars
        high := none }
    | none => { b with sound := false }
  else b.push (Char.ofNat n)

def close (b : Body) : Option String :=
  if b.sound && b.high.isNone then some (String.ofList b.chars.reverse) else none

end Body

inductive Scan where
  | between
  | word (chars : List Char)
  | quoted (body : Body)
  | escape (body : Body)
  | unit (body : Body) (missing value : Nat)

def isBlank (c : Char) : Bool := c == ' ' || c == '\n' || c == '\t' || c == '\r'

def isWordChar (c : Char) : Bool := c.isAlphanum || c == '-' || c == '+' || c == '.'

def punctuation? : Char → Option Token
  | '[' => some .openList
  | ']' => some .closeList
  | '{' => some .openRecord
  | '}' => some .closeRecord
  | ',' => some .comma
  | ':' => some .colon
  | _ => none

def hexDigit? (c : Char) : Option Nat :=
  if c.isDigit then some (c.toNat - '0'.toNat)
  else if 'a' ≤ c ∧ c ≤ 'f' then some (c.toNat - 'a'.toNat + 10)
  else if 'A' ≤ c ∧ c ≤ 'F' then some (c.toNat - 'A'.toNat + 10)
  else none

def unescape? : Char → Option Char
  | '"' => some '"'
  | '\\' => some '\\'
  | '/' => some '/'
  | 'b' => some '\x08'
  | 'f' => some '\x0c'
  | 'n' => some '\n'
  | 'r' => some '\r'
  | 't' => some '\t'
  | _ => none

def start? (c : Char) : Option (List Token × Scan) :=
  if isBlank c then some ([], .between)
  else if c == '"' then some ([], .quoted {})
  else if isWordChar c then some ([], .word [c])
  else (punctuation? c).map fun t => ([t], .between)

/-- One character: the tokens that it completes, and the scan behind it. -/
def scan : Scan → Char → Option (List Token × Scan)
  | .between, c => start? c
  | .word chars, c =>
    if isWordChar c then some ([], .word (c :: chars))
    else (start? c).map fun (ts, s) => (.word chars.reverse :: ts, s)
  | .quoted body, c =>
    if c == '"' then some ([.text body.close], .between)
    else if c == '\\' then some ([], .escape body)
    else if c.toNat < 0x20 then none
    else some ([], .quoted (body.push c))
  | .escape body, c =>
    if c == 'u' then some ([], .unit body 4 0)
    else (unescape? c).map fun c => ([], .quoted (body.push c))
  | .unit body missing value, c =>
    (hexDigit? c).map fun d =>
      let value := 16 * value + d
      if missing ≤ 1 then ([], .quoted (body.unit value)) else ([], .unit body (missing - 1) value)

def tokensFrom : List Token → Scan → List Char → Option (List Token)
  | found, .between, [] => some found.reverse
  | found, .word chars, [] => some (Token.word chars.reverse :: found).reverse
  | _, _, [] => none
  | found, s, c :: rest =>
    match scan s c with
    | some (ts, s) => tokensFrom (ts.reverse ++ found) s rest
    | none => none

def tokens? (text : String) : Option (List Token) := tokensFrom [] .between text.toList

end Arbor.Json
