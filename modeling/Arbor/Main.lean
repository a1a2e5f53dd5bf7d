import Arbor.Report.Transcript

namespace Arbor

def ReportOptions.files (options : ReportOptions) : List String :=
  options.parameters.toList ++ options.settings.toList

def Request.files : Except UsageFault Request → List String
  | .ok (.report options) => if options.list then [] else options.files
  | _ => []

def readFile (name : String) : IO (Except (Fault Float) String) := do
  match ← (IO.FS.readFile name).toBaseIO with
  | .ok text => return .ok text
  | .error _ => return .error .unreadableFile

end Arbor

open Arbor in
def main (arguments : List String) : IO UInt32 := do
  let texts ← (Request.files (Request.ofArguments arguments)).mapM fun name =>
    return (name, ← readFile name)
  let bytes ← IO.getRandomBytes 8
  let chance := bytes.foldl (fun seed b => seed * 256 + b.toUInt64) 0
  let files : Files := fun name => (texts.lookup name).getD (.error .unreadableFile)
  let t := Transcript.ofArguments files chance arguments
  IO.print t.output
  t.errors.forM fun line => IO.eprintln line
  return t.code.toUInt32
