import Arbor.Text.Lowercase

namespace Arbor

inductive ValueOption where
  | tree
  | leaf
  | seed
  | overlapSeed
  | parameters
  | settings
deriving DecidableEq, Repr

inductive CommandOption where
  | help
  | leafOnly
  | list
  | valued (o : ValueOption)
deriving DecidableEq, Repr

inductive UsageFault where
  | missingValue (o : ValueOption)
  | invalidSeed (text : String)
  | invalidOverlapSeed (text : String)
  | unknownOption (text : String)
deriving DecidableEq, Repr

structure ReportOptions where
  tree : String := "monopodial"
  leaf : String := "cordate"
  seed : Option UInt64 := none
  overlapSeed : Option UInt64 := none
  parameters : Option String := none
  settings : Option String := none
  leafOnly : Bool := false
  list : Bool := false
deriving DecidableEq, Repr

inductive Request where
  | help
  | report (options : ReportOptions)
deriving DecidableEq, Repr

def ValueOption.text : ValueOption → String
  | tree => "--tree"
  | leaf => "--leaf"
  | seed => "--seed"
  | overlapSeed => "--overlap-seed"
  | parameters => "--params"
  | settings => "--config"

def UsageFault.message : UsageFault → String
  | missingValue o => "Missing value for " ++ o.text
  | invalidSeed text => "Invalid seed: " ++ text
  | invalidOverlapSeed text => "Invalid overlap seed: " ++ text
  | unknownOption text => "Unknown option: " ++ text

def CommandOption.ofText? : String → Option CommandOption
  | "-h" | "--help" => some .help
  | "--leaf-only" => some .leafOnly
  | "--list" => some .list
  | "-t" | "--tree" => some (.valued .tree)
  | "-l" | "--leaf" => some (.valued .leaf)
  | "--seed" => some (.valued .seed)
  | "--overlap-seed" => some (.valued .overlapSeed)
  | "--params" => some (.valued .parameters)
  | "--config" => some (.valued .settings)
  | _ => none

def natOfDigits (cs : List Char) : Nat := cs.foldl (fun n c => 10 * n + (c.toNat - '0'.toNat)) 0

/-- A seed is a number of 64 bits in decimal digits, with or without a plus. -/
def seed? (text : String) : Option UInt64 :=
  let digits := match text.toList with
    | '+' :: cs => cs
    | cs => cs
  let n := natOfDigits digits
  if !digits.isEmpty && digits.all Char.isDigit && n < UInt64.size then some n.toUInt64 else none

namespace ReportOptions

/-- Takes a value over; the names of plants are read in lower case. -/
def set (options : ReportOptions) (value : String) :
    ValueOption → Except UsageFault ReportOptions
  | .tree => .ok { options with tree := lowercase value }
  | .leaf => .ok { options with leaf := lowercase value }
  | .seed => match seed? value with
    | some seed => .ok { options with seed }
    | none => .error (.invalidSeed value)
  | .overlapSeed => match seed? value with
    | some overlapSeed => .ok { options with overlapSeed }
    | none => .error (.invalidOverlapSeed value)
  | .parameters => .ok { options with parameters := some value }
  | .settings => .ok { options with settings := some value }

def read (options : ReportOptions) : List String → Except UsageFault Request
  | [] => .ok (.report options)
  | word :: rest => match CommandOption.ofText? word with
    | none => .error (.unknownOption word)
    | some .help => .ok .help
    | some .leafOnly => read { options with leafOnly := true } rest
    | some .list => read { options with list := true } rest
    | some (.valued o) => match rest with
      | [] => .error (.missingValue o)
      | value :: others => match options.set value o with
        | .ok options => read options others
        | .error fault => .error fault

end ReportOptions

def Request.ofArguments (arguments : List String) : Except UsageFault Request :=
  ReportOptions.read {} arguments

def usage : List String := [
  "plant_report - Plant assembly report",
  "",
  "Usage: plant_report [OPTIONS]",
  "",
  "Options:",
  "    -t, --tree <NAME>          Tree species (default: monopodial)",
  "    -l, --leaf <NAME>          Leaf species (default: cordate)",
  "    --seed <SEED>              Randomize every parameter within its range",
  "    --overlap-seed <SEED>      Seed for overlap sampling (default: OS entropy)",
  "    --params <FILE>            JSON parameter overrides keyed by species",
  "    --config <FILE>            JSON assembly configuration",
  "    --leaf-only                Assemble a single leaf without a tree",
  "    --list                     List the known species and exit",
  "    -h, --help                 Show this help message",
  "",
  "Example:",
  "    plant_report -t ternary -l simple --overlap-seed 7",
  "    plant_report --leaf-only -l cordate"]

end Arbor
