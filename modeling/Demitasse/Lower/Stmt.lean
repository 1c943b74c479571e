import Demitasse.Lower.Expr

/-! Code for statements. -/

namespace Demitasse

open Lower

mutual

/-- The code of a statement. -/
def Stmt.lower (Γ : Context) : Stmt → Lower Code
  | .block _ body => Stmt.lowerAll Γ body
  | .ifElse _ cond thenBranch elseBranch => do
    let (condCode, condValue) ← cond.lower Γ
    let thenLabel ← newLabel "if"
    let elseLabel ← newLabel "if"
    let endLabel ← newLabel "if"
    let thenCode ← thenBranch.lower Γ
    let elseCode ← elseBranch.lower Γ
    return condCode
      ++ [.instr (.branchIf condValue.operand thenLabel elseLabel), .label thenLabel]
      ++ thenCode
      ++ [.instr (.branch endLabel), .label elseLabel]
      ++ elseCode
      ++ [.instr (.branch endLabel), .label endLabel]
  | .loop _ cond body => do
    let condLabel ← newLabel "loop"
    let bodyLabel ← newLabel "loop"
    let endLabel ← newLabel "loop"
    let (condCode, condValue) ← cond.lower Γ
    let bodyCode ← body.lower Γ
    return [.instr (.branch condLabel), .label condLabel]
      ++ condCode
      ++ [.instr (.branchIf condValue.operand bodyLabel endLabel), .label bodyLabel]
      ++ bodyCode
      ++ [.instr (.branch condLabel), .label endLabel]
  | .print _ arg => do
    let (code, value) ← arg.lower Γ
    return code
      ++ [.instr (.call none (.returns .void) (.global printInt.sig.name) [(.i32, value.operand)])]
  | .assign node target value => do
    let (valueCode, value) ← value.lower Γ
    let (ptrCode, ptr) ← variablePtr Γ target node.id
    return valueCode ++ ptrCode ++ [.instr (.store ptr.ty.ir value.operand ptr.operand)]
  | .assignElement node target index value => do
    let (targetCode, targetPtr) ← variablePtr Γ target node.id
    let array ← newTemp
    let (indexCode, indexValue) ← index.lower Γ
    let (valueCode, value) ← value.lower Γ
    let (elementCode, ptr) ← elementPtr (.reg array) indexValue.operand
    return targetCode ++ [.instr (.load array (.ptr .i32) targetPtr.operand)] ++ indexCode ++ valueCode
      ++ elementCode ++ [.instr (.store .i32 value.operand ptr)]

/-- The code of statements in a row. -/
def Stmt.lowerAll (Γ : Context) : List Stmt → Lower Code
  | [] => return []
  | s :: rest => do
    let code ← s.lower Γ
    let restCode ← Stmt.lowerAll Γ rest
    return code ++ restCode

end

end Demitasse
