import Demitasse.Program.Basic

/-! What makes a program with a sound class hierarchy meaningless. -/

namespace Demitasse

/-- The part that an expression plays where its type matters. -/
inductive Role where
  | ifCondition | whileCondition | printed | assigned | arrayIndex | arrayElement
  | returned | argument | operand (op : BinOp) | indexed | measured | arraySize | negated
deriving DecidableEq

/-- A part as messages call it. -/
def Role.text : Role → String
  | .ifCondition => "if condition"
  | .whileCondition => "while condition"
  | .printed => "println argument"
  | .assigned => "assigned value"
  | .arrayIndex => "array index"
  | .arrayElement => "array element"
  | .returned => "return value"
  | .argument => "argument"
  | .operand op => "operand of '" ++ op.symbol ++ "'"
  | .indexed => "indexed value"
  | .measured => "operand of '.length'"
  | .arraySize => "array size"
  | .negated => "operand of '!'"

/-- Why a program is rejected. -/
inductive TypingFault where
  | unknownClass (className : String)
  | fieldTwice (field className : String)
  | fieldInherited (field className : String)
  | methodTwice (method className : String)
  | parameterTwice (parameter method : String)
  | variableTwice (variableName method : String)
  | overrideParameters (className method overridden : String)
  | overrideResult (className method : String) (ret : Ty) (expected : Ty) (overridden : String)
  | mismatch (role : Role) (expected actual : Ty)
  | undeclared (name : String)
  | unassigned (name : String)
  | notArray (name : String) (ty : Ty)
  | notObject (method : String) (ty : Ty)
  | noMethod (className method : String)
  | argumentCount (method : String) (expected actual : Nat)
  | thisInMain
deriving DecidableEq

/-- The message of a fault. -/
def TypingFault.message : TypingFault → String
  | .unknownClass className => "Unknown class '" ++ className ++ "'"
  | .fieldTwice field className =>
    "Field '" ++ field ++ "' is declared twice in class '" ++ className ++ "'"
  | .fieldInherited field className =>
    "Field '" ++ field ++ "' of class '" ++ className ++ "' redeclares an inherited field"
  | .methodTwice method className =>
    "Method '" ++ method ++ "' is declared twice in class '" ++ className ++ "'"
  | .parameterTwice parameter method =>
    "Parameter '" ++ parameter ++ "' of '" ++ method ++ "' is declared twice"
  | .variableTwice variableName method =>
    "Variable '" ++ variableName ++ "' in '" ++ method ++ "' is already declared"
  | .overrideParameters className method overridden =>
    "Method '" ++ className ++ "." ++ method ++ "' overrides '" ++ overridden
      ++ "' with different parameters"
  | .overrideResult className method ret expected overridden =>
    "Method '" ++ className ++ "." ++ method ++ "' returns " ++ ret.spelling
      ++ ", which is not a subtype of " ++ expected.spelling ++ " returned by '" ++ overridden ++ "'"
  | .mismatch role expected actual =>
    "Expected " ++ role.text ++ " of type " ++ expected.spelling ++ ", found " ++ actual.spelling
  | .undeclared name => "Undeclared identifier '" ++ name ++ "'"
  | .unassigned name => "Variable '" ++ name ++ "' may be used before it is initialized"
  | .notArray name ty => "'" ++ name ++ "' is " ++ ty.spelling ++ ", not an int array"
  | .notObject method ty => "Cannot call '" ++ method ++ "' on a value of type " ++ ty.spelling
  | .noMethod className method => "Class '" ++ className ++ "' has no method '" ++ method ++ "'"
  | .argumentCount method expected actual =>
    "'" ++ method ++ "' expects " ++ toString expected ++ " arguments, got " ++ toString actual
  | .thisInMain => "'this' cannot be used in the main method"

end Demitasse
