import Demitasse.Class.Describe
import Demitasse.CommandLine.Options
import Demitasse.Compile
import Demitasse.Program.Render

/-! Runs of the compiler from the command line. What the file system answers is given, so that a run
is a function of its arguments and these answers. -/

namespace Demitasse

/-- Why a file cannot be read or written. -/
inductive FileError where
  | notFound
  | isDirectory
  | notText
  | other (message : String)
deriving DecidableEq

/-- The message of a file error. -/
def FileError.message : FileError → String
  | .notFound => "No such file or directory (os error 2)"
  | .isDirectory => "Is a directory (os error 21)"
  | .notText => "stream did not contain valid UTF-8"
  | .other message => message

/-- Why a run fails. -/
inductive RunError where
  | file (e : FileError)
  | compile (e : CompileError)
deriving DecidableEq

/-- The message of a failed run. -/
def RunError.message : RunError → String
  | .file e => e.message
  | .compile e => e.text

/-- What a run writes, and what it tells the user beside that. -/
structure Product where
  text : String
  notice : String
deriving DecidableEq

/-- What a run leaves behind. -/
structure Outcome where
  exitCode : Nat
  stdout : String
  stderr : String
  /-- the file that was written -/
  file : Option (String × String)
deriving DecidableEq

/-- The verdict about a program; the reason of a rejection goes to the user. -/
def Program.verdict (p : Program) : Except CompileError Product :=
  match p.validate with
  | .ok () => .ok ⟨"OK\n", ""⟩
  | .error e => if e.isRejection then .ok ⟨"ERROR\n", e.text ++ "\n"⟩ else .error e

namespace Options

/-- What a run writes for a program. -/
def productOf (o : Options) (p : Program) : Except CompileError Product :=
  match o.format with
  | .source => return ⟨p.render, ""⟩
  | .ast => return ⟨p.dump.indented 0 ++ "\n", ""⟩
  | .check => p.verdict
  | .hierarchy => return ⟨(← Analysis.ofProgram p).describe, ""⟩
  | .llvm => return ⟨(← p.compile (!o.skipCheck)).render, ""⟩

/-- What a run writes for the contents of its input file. -/
def produce (o : Options) (contents : Except FileError ByteArray) : Except RunError Product := do
  let bytes ← contents.mapError .file
  match String.fromUTF8? bytes with
  | none => throw (.file .notText)
  | some source => (parse source >>= o.productOf).mapError .compile

/-- The outcome of a run. `written` is the answer of the file system to writing the product, and counts
only where there is one to be written. -/
def outcome (o : Options) (result : Except RunError Product) (written : Except FileError Unit) :
    Outcome :=
  let failure (notice : String) (message : String) : Outcome :=
    ⟨1, "", notice ++ "Error: " ++ message ++ "\n", none⟩
  match result with
  | .error e => failure "" e.message
  | .ok product =>
    match o.output with
    | none => ⟨0, product.text, product.notice, none⟩
    | some path =>
      match written with
      | .error e => failure product.notice e.message
      | .ok () => ⟨0, "", product.notice ++ "Wrote " ++ path ++ "\n", some (path, product.text)⟩

end Options

/-- The answer to a request for the version. -/
def versionOutcome : Outcome :=
  ⟨0, "mjavac 0.1.0\n", "", none⟩

/-- The answer to a request for help. -/
def helpOutcome : Outcome :=
  ⟨0, "Usage: mjavac [OPTIONS] <INPUT>\n", "", none⟩

/-- The answer to arguments that ask for nothing. -/
def ArgumentFault.outcome (e : ArgumentFault) : Outcome :=
  ⟨2, "", "error: " ++ e.message ++ "\n", none⟩

end Demitasse
