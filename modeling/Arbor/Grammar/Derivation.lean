import Arbor.Parameter.Store

namespace Arbor

inductive Symbol (δ : Type → Type) (α : Type) where
  | instruction (i : Instruction α)
  | production (p : δ α)

abbrev Word (δ : Type → Type) (α : Type) := List (Symbol δ α)

/-- A computation that draws numbers and may fail; draws before a failure stay drawn. -/
abbrev Drawing (α : Type) := ExceptT (Fault α) (StateM Generator)

/-- What the productions of a grammar expand to, how instructions age under it, and how the
productions are written. -/
class Dialect (δ : Type → Type) where
  successor : {α : Type} → [Scalar α] → Store α → δ α → Drawing α (Word δ α)
  regrow : {α : Type} → [Scalar α] → Store α → Instruction α → Except (Fault α) (Instruction α)
  toCall : {α : Type} → δ α → Call α
  ofCall? : {α : Type} → [Scalar α] → Call α → Option (δ α)
  text : δ Float → String := fun p => (toCall p).text

namespace Symbol

variable {δ : Type → Type} [Dialect δ] {α : Type}

def toCall : Symbol δ α → Call α
  | instruction i => i.toCall
  | production p => Dialect.toCall p

def ofCall? [Scalar α] (c : Call α) : Option (Symbol δ α) :=
  match Dialect.ofCall? c with
  | some p => some (production p)
  | none => (Instruction.ofCall? c).map instruction

def text : Symbol δ Float → String
  | instruction i => i.text
  | production p => Dialect.text p

end Symbol

namespace Word

variable {δ : Type → Type} {α : Type}

def op (i : Instruction α) : Word δ α := [.instruction i]

def grow (p : δ α) : Word δ α := [.production p]

def branch (w : Word δ α) : Word δ α := op .push ++ w ++ op .pop

def polygon (w : Word δ α) : Word δ α := op .openPolygon ++ w ++ op .closePolygon

def program (w : Word δ α) : List (Instruction α) :=
  w.filterMap fun
    | .instruction i => some i
    | .production _ => none

def text [Dialect δ] (w : Word δ Float) : String :=
  w.foldl (fun out s => out ++ s.text) ""

end Word

namespace Drawing

variable {α : Type} [Scalar α]

def uniform : Drawing α α := modifyGet Generator.uniform

end Drawing

namespace Derivation

variable {δ : Type → Type} [Dialect δ] {α : Type} [Scalar α]

def successor (params : Store α) : Symbol δ α → Drawing α (Word δ α)
  | .instruction i => do
    let i ← Dialect.regrow δ params i
    return Word.op i
  | .production p => Dialect.successor params p

/-- The successors of a symbol; a seed restarts the draws and disappears. -/
def replace (params : Store α) (s : Symbol δ α) : Drawing α (Word δ α) :=
  match s with
  | .instruction (.reseed seed) => do
    set (Generator.ofSeed seed)
    return []
  | s => successor params s

def replaceOnto (params : Store α) (done : Array (Symbol δ α)) :
    Word δ α → Drawing α (Array (Symbol δ α))
  | [] => return done
  | s :: rest => do
    let w ← replace params s
    replaceOnto params (done ++ w) rest

def replaceAll (params : Store α) (w : Word δ α) : Drawing α (Word δ α) := do
  let done ← replaceOnto params #[] w
  return done.toList

end Derivation

structure LSystem (δ : Type → Type) (α : Type) where
  word : Word δ α
  generator : Generator := Generator.ofSeed 0
  generation : Nat := 0

abbrev Growing (δ : Type → Type) (α : Type) := ExceptT (Fault α) (StateM (LSystem δ α))

namespace LSystem

variable {δ : Type → Type} [Dialect δ] {α : Type} [Scalar α]

/-- One generation. If it fails, word and generation stay as they are. -/
def step (params : Store α) : Growing δ α Unit := do
  let l ← get
  let (word, generator) := (Derivation.replaceAll params l.word).run.run l.generator
  match word with
  | .ok word => set { word, generator, generation := l.generation + 1 : LSystem δ α }
  | .error fault =>
    set { l with generator }
    throw fault

def iterate (params : Store α) : Nat → Growing δ α Unit
  | 0 => return ()
  | n + 1 => do
    step params
    iterate params n

end LSystem

structure Grammar where
  Production : Type → Type
  dialect : Dialect Production
  start : {α : Type} → [Scalar α] → Store α → Except (Fault α) (Word Production α)

instance (g : Grammar) : Dialect g.Production := g.dialect

/-- The word that the parameter `iterationNumber` asks for; below zero it is the axiom. -/
def derive {δ : Type → Type} [Dialect δ] {α : Type} [Scalar α] (params : Store α)
    (start : Word δ α) : Except (Fault α) (Nat × Word δ α) := do
  let generations := (← params.integer "iterationNumber").toNatClampNeg
  let (outcome, l) := (LSystem.iterate params generations).run.run { word := start }
  match outcome with
  | .ok () => return (generations, l.word)
  | .error fault => throw fault

end Arbor
