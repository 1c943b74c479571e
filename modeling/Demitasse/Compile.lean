import Demitasse.Lower.Program
import Demitasse.Parse.Program
import Demitasse.Typing.Program

/-! The way from a source text to a program, to a verdict about it and to its code. -/

namespace Demitasse

/-- The program that a source text holds. -/
def parse (source : String) : Except CompileError Program := do
  let lexemes ← (scan source).mapError .lexical
  match Parser.program.run (.start lexemes) with
  | .ok p _ => return p
  | .error e _ => throw (.syntactic e)

/-- Nothing is wrong with the hierarchy, the declarations and the bodies of a program. -/
def Program.validate (p : Program) : Except CompileError Unit := do
  let a ← Analysis.ofProgram p
  (p.check a).mapError .typing

/-- Whether a source text is a valid program; it must at least be one. -/
def isValid (source : String) : Except CompileError Bool := do
  let p ← parse source
  match p.validate with
  | .ok () => return true
  | .error e => if e.isRejection then return false else throw e

/-- The module of a source text; the program is checked only if asked for. -/
def Program.compile (p : Program) (checked : Bool) : Except CompileError IrModule := do
  let a ← Analysis.ofProgram p
  if checked then (p.check a).mapError .typing
  (p.lower a).mapError .lowering

/-- The code of a source text that holds a valid program. -/
def compile (source : String) : Except CompileError String := do
  let p ← parse source
  return (← p.compile true).render

end Demitasse
