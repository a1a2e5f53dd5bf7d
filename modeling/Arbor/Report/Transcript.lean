import Arbor.Assembly.Build
import Arbor.Report.Figures
import Arbor.Report.Options
import Arbor.Species.Registry

namespace Arbor

structure Transcript where
  code : Nat := 0
  output : String := ""
  errors : List String := []
deriving DecidableEq, Repr

def dropReturn (line : String) : String :=
  match line.toList.reverse with
  | '\r' :: cs => String.ofList cs.reverse
  | _ => line

/-- The lines of the messages; one that repeats an argument may run over several. -/
def Transcript.errorLines (t : Transcript) : List String :=
  t.errors.flatMap fun message => (message.splitOn "\n").map dropReturn

abbrev Files := String → Except (Fault Float) String

abbrev Printing := ExceptT (Fault Float) (StateM String)

def printLines (lines : List String) : Printing Unit :=
  modify fun output => lines.foldl (fun text line => text ++ line ++ "\n") output

def Registry.prepare {σ : Type} [Species σ] (r : Registry σ) (name : String)
    (overrides : Config Float) (seed : Option UInt64) : Except (Fault Float) (Plant σ Float) := do
  let p ← r.createConfigured name overrides
  match seed with
  | none => return p
  | some seed => match (Store.randomize seed).on p.parameters with
    | (.ok _, parameters) => return { p with parameters }
    | (.error fault, _) => throw fault

def Plant.print {σ : Type} [Species σ] (p : Plant σ Float) : Printing Unit := do
  let text ← p.printout
  modify (· ++ text)

namespace ReportOptions

def overrides (options : ReportOptions) (files : Files) : Except (Fault Float) (Config Float) :=
  match options.parameters with
  | none => .ok {}
  | some name => do Config.ofDocument (← files name)

/-- The configured settings; a seed among the options goes before a configured one. -/
def settled (options : ReportOptions) (files : Files) : Except (Fault Float) (Settings Float) := do
  let s ← match options.settings with
    | none => pure Settings.standard
    | some name => do Settings.ofDocument (← files name)
  return { s with overlapSeed := options.overlapSeed <|> s.overlapSeed }

def print (options : ReportOptions) (files : Files) (chance : UInt64) : Printing Unit := do
  let trees : Registry TreeSpecies := Registry.builtIn
  let leaves : Registry LeafSpecies := Registry.builtIn
  if options.list then
    printLines ["Trees : " ++ ", ".intercalate trees.names,
      "Leaves: " ++ ", ".intercalate leaves.names]
  else
    let overrides ← options.overrides files
    let settings ← options.settled files
    let leaf ← leaves.prepare options.leaf overrides options.seed
    let built ←
      if options.leafOnly then
        leaf.print
        settings.buildLeaf leaf
      else
        let tree ← trees.prepare options.tree overrides options.seed
        tree.print
        leaf.print
        settings.build tree leaf (.ofSeed chance)
    printLines ("" :: built.lines)

end ReportOptions

/-- Faults that a caller cannot mend end with a code of their own. -/
def Fault.exitCode {α : Type} : Fault α → Nat
  | emptyInterval | outOfBounds | overflow | tooWide => 101
  | _ => 1

namespace Transcript

def ofUsageFault (fault : UsageFault) : Transcript :=
  { code := 1, errors := ("Error: " ++ fault.message) :: "" :: usage }

def ofPrinting (p : Printing Unit) : Transcript :=
  match p.run.run "" with
  | (.ok _, output) => { output }
  | (.error fault, output) =>
    { code := fault.exitCode, output, errors := ["Error: " ++ fault.message] }

def ofArguments (files : Files) (chance : UInt64) (arguments : List String) : Transcript :=
  match Request.ofArguments arguments with
  | .error fault => ofUsageFault fault
  | .ok .help => { errors := usage }
  | .ok (.report options) => ofPrinting (options.print files chance)

end Transcript

end Arbor
