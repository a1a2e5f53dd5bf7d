import Arbor.Text.LetterCase

namespace Arbor

def CaseRun.covers (r : CaseRun) (n : Nat) : Bool :=
  r.first ≤ n && n ≤ r.last && (n - r.first) % r.step == 0

namespace LetterCase

def lower (c : Char) : Char :=
  match capitals.find? fun r => r.covers c.toNat with
  | some r => Char.ofNat (c.toNat + r.shift).toNat
  | none => c

def startsCased (cs : List Char) : Bool :=
  match cs.dropWhile isIgnorable with
  | c :: _ => isCased c
  | [] => false

/-- The lower case of a text of which `before` has been read, the nearest character first. Only the
capital sigma depends on its surroundings. -/
def lowerFrom (before : List Char) : List Char → List Char
  | [] => []
  | c :: rest =>
    let lowered :=
      if c = 'Σ' then [if startsCased before && !startsCased rest then 'ς' else 'σ']
      else if c = 'İ' then ['i', '\u0307']
      else [lower c]
    lowered ++ lowerFrom (c :: before) rest

end LetterCase

def lowercase (s : String) : String := String.ofList (LetterCase.lowerFrom [] s.toList)

end Arbor
