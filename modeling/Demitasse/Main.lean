import Demitasse.CommandLine.Run

/-! The command line program. -/

namespace Demitasse

/-- The cause of a failed file operation. -/
def FileError.ofSystem (e : IO.Error) : FileError :=
  match e with
  | .noFileOrDirectory .. => .notFound
  | .inappropriateType .. => .isDirectory
  | e => .other e.toString

/-- Runs a file operation and keeps the cause of its failure. -/
def tryFile {α : Type} (action : IO α) : IO (Except FileError α) := do
  try
    return .ok (← action)
  catch e =>
    return .error (.ofSystem e)

/-- Reads, compiles and writes. -/
def Options.execute (o : Options) : IO Outcome := do
  let result := o.produce (← tryFile (IO.FS.readBinFile o.input))
  let written ← match result, o.output with
    | .ok product, some path => tryFile (IO.FS.writeFile path product.text)
    | _, _ => pure (.ok ())
  return o.outcome result written

/-- The outcome of a command line. -/
def executeArgs (args : List String) : IO Outcome :=
  match Command.ofArgs args with
  | .ok (.run options) => options.execute
  | .ok .version => return versionOutcome
  | .ok .help => return helpOutcome
  | .error e => return e.outcome

end Demitasse

def main (args : List String) : IO UInt32 := do
  let outcome ← Demitasse.executeArgs args
  IO.print outcome.stdout
  IO.eprint outcome.stderr
  return outcome.exitCode.toUInt32
