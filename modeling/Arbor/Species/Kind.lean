import Arbor.Json.Value
import Arbor.Species.Tree.Helical
import Arbor.Species.Tree.Monopodial
import Arbor.Species.Tree.Stochastic
import Arbor.Species.Tree.Stump
import Arbor.Species.Tree.Sympodial
import Arbor.Species.Tree.Ternary
import Arbor.Species.Leaf.Cordate
import Arbor.Species.Leaf.Pinnate
import Arbor.Species.Leaf.Planar

namespace Arbor

inductive TreeSpecies where
  | helical
  | monopodial
  | stochastic
  | stump
  | sympodial
  | ternary
deriving DecidableEq, Repr, Inhabited

inductive LeafSpecies where
  | cordate
  | planar
  | rose
  | simple
deriving DecidableEq, Repr, Inhabited

class Species (σ : Type) where
  kind : PlantKind
  all : List σ
  name : σ → String
  title : σ → String
  defaults : {α : Type} → [Scalar α] → σ → Store α
  grammar : σ → Grammar

instance : Species TreeSpecies where
  kind := .tree
  all := [.helical, .monopodial, .stochastic, .stump, .sympodial, .ternary]
  name
    | .helical => "helical"
    | .monopodial => "monopodial"
    | .stochastic => "stochastic"
    | .stump => "stump"
    | .sympodial => "sympodial"
    | .ternary => "ternary"
  title
    | .helical => "Helical"
    | .monopodial => "Monopodial"
    | .stochastic => "Stochastic"
    | .stump => "Stump"
    | .sympodial => "Sympodial"
    | .ternary => "Ternary"
  defaults
    | .helical => Helical.defaults
    | .monopodial => Monopodial.defaults
    | .stochastic => Stochastic.defaults
    | .stump => Stump.defaults
    | .sympodial => Sympodial.defaults
    | .ternary => Ternary.defaults
  grammar
    | .helical => Helical.grammar
    | .monopodial => Monopodial.grammar
    | .stochastic => Stochastic.grammar
    | .stump => Stump.grammar
    | .sympodial => Sympodial.grammar
    | .ternary => Ternary.grammar

instance : Species LeafSpecies where
  kind := .leaf
  all := [.cordate, .planar, .rose, .simple]
  name
    | .cordate => "cordate"
    | .planar => "planar"
    | .rose => "rose"
    | .simple => "simple"
  title
    | .cordate => "Cordate"
    | .planar => "Planar"
    | .rose => "Rose"
    | .simple => "Simple"
  defaults
    | .cordate => Cordate.defaults
    | .planar => Planar.defaults
    | .rose => Pinnate.roseDefaults
    | .simple => Pinnate.simpleDefaults
  grammar
    | .cordate => Cordate.grammar
    | .planar => Planar.grammar
    | .rose | .simple => Pinnate.grammar

namespace Species

variable {σ : Type} [Species σ]

def ofName {α : Type} (name : String) : Except (Fault α) σ :=
  match (all : List σ).find? fun s => Species.name s == name with
  | some s => .ok s
  | none => .error (.unknownSpecies (kind σ) name)

def toJson (s : σ) : Json := .text (name s)

/-- A species is written as its name, or as a record with that name alone for an empty field. -/
def ofJson? (v : Json) : Option σ :=
  let find (n : String) : Option σ := all.find? fun s => name s == n
  match v with
  | .text n => find n
  | .record [(n, .null)] => find n
  | _ => none

end Species

end Arbor
