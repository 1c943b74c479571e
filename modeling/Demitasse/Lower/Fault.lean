import Demitasse.Program.Dump

/-! What keeps a program from being lowered. A program that was checked has none of these faults. -/

namespace Demitasse

/-- Why a program has no code. -/
inductive LoweringFault where
  | missingClass (className : String)
  | thisInMain
  | callOnNonObject (method : String) (ty : Ty)
  | noMethodTable (className : String)
  | noMethod (className method : String)
  | unknownClass (className : String)
  | fieldOutsideClass (field : String)
  | noField (className field : String)
  | unresolved (name : String) (node : NodeId)
deriving DecidableEq

/-- The message of a fault. -/
def LoweringFault.message : LoweringFault → String
  | .missingClass className => "Class '" ++ className ++ "' missing from the symbol table"
  | .thisInMain => "'this' used in the main method"
  | .callOnNonObject method ty =>
    "Call to '" ++ method ++ "' on a non-object of type " ++ ty.spelling
  | .noMethodTable className => "No vtable for class '" ++ className ++ "'"
  | .noMethod className method => "Class '" ++ className ++ "' has no method '" ++ method ++ "'"
  | .unknownClass className => "Unknown class '" ++ className ++ "'"
  | .fieldOutsideClass field => "Field '" ++ field ++ "' accessed outside a class"
  | .noField className field => "Class '" ++ className ++ "' has no field '" ++ field ++ "'"
  | .unresolved name node =>
    "Variable '" ++ name ++ "' does not resolve at node " ++ (NodeId.dump node).compact

end Demitasse
