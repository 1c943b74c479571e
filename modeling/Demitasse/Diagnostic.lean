import Demitasse.Class.Forest
import Demitasse.Lower.Fault
import Demitasse.Parse.Cursor
import Demitasse.Token.Scan
import Demitasse.Typing.Fault

/-! Errors of the whole compiler, and the text in which a user sees them. -/

namespace Demitasse

/-- The steps whose errors point at the source text. -/
inductive Stage where
  | lexer | parse | hierarchy | semantic
deriving DecidableEq

/-- A step as it is called in reports. -/
def Stage.title : Stage → String
  | .lexer => "Lexer"
  | .parse => "Parse"
  | .hierarchy => "Hierarchy"
  | .semantic => "Semantic"

/-- A report for the user. -/
inductive Diagnostic where
  | source (stage : Stage) (span : Span) (message : String)
  | codegen (message : String)
  | io (message : String)
deriving DecidableEq

namespace Diagnostic

/-- The text of a report. -/
def text : Diagnostic → String
  | .source stage span message =>
    stage.title ++ " error at " ++ span.text ++ ": " ++ message
  | .codegen message => "Codegen error: " ++ message
  | .io message => "IO error: " ++ message

/-- Whether the report says that a program was read and found invalid. -/
def isRejection : Diagnostic → Bool
  | .source .hierarchy .. | .source .semantic .. => true
  | _ => false

end Diagnostic

/-- Why a source text is not compiled. -/
inductive CompileError where
  | lexical (e : Located LexicalFault)
  | syntactic (e : Located SyntaxFault)
  | hierarchy (e : Located HierarchyFault)
  | typing (e : Located TypingFault)
  | lowering (cause : LoweringFault)
deriving DecidableEq

namespace CompileError

/-- The report of an error. -/
def diagnostic : CompileError → Diagnostic
  | .lexical e => .source .lexer e.span e.cause.message
  | .syntactic e => .source .parse e.span e.cause.message
  | .hierarchy e => .source .hierarchy e.span e.cause.message
  | .typing e => .source .semantic e.span e.cause.message
  | .lowering cause => .codegen cause.message

/-- The text of an error. -/
def text (e : CompileError) : String :=
  e.diagnostic.text

/-- Whether the program was read and found invalid. -/
def isRejection (e : CompileError) : Bool :=
  e.diagnostic.isRejection

end CompileError

end Demitasse
