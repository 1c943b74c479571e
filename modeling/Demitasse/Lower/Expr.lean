import Demitasse.Analysis
import Demitasse.Ir.Module
import Demitasse.Lower.Names

/-! Code for expressions. An object is the address of a block whose first bytes hold the address of
its class's method table; an array is the address of its length, behind which its elements stand. -/

namespace Demitasse

/-- The value of an expression: where it is, and what it is. -/
structure Value where
  operand : Operand
  ty : Ty
deriving DecidableEq

/-- Code that is only instructions. -/
def Code.ofInstrs (instrs : List Instr) : Code :=
  instrs.map .instr

namespace Lower

/-- Ends the run if a comparison holds. -/
def guard (stem : String) (cmp : Comparison) (lhs rhs : Operand) : Lower Code := do
  let violated ← newTemp
  let failLabel ← newLabel stem
  let okLabel ← newLabel stem
  return [
    .instr (.compare violated cmp .i32 lhs rhs),
    .instr (.branchIf (.reg violated) failLabel okLabel),
    .label failLabel,
    .instr (.call none (.returns .void) (.global throwOutOfBounds.sig.name) []),
    .instr (.branch okLabel),
    .label okLabel]

/-- The address of an element of an array, after the index was compared with zero and the length. -/
def elementPtr (array index : Operand) : Lower (Code × Operand) := do
  let lowGuard ← guard "oob" .lt index (.const 0)
  let lengthPtr ← newTemp
  let length ← newTemp
  let highGuard ← guard "oob" .le (.reg length) index
  let position ← newTemp
  let element ← newTemp
  let code := lowGuard
    ++ Code.ofInstrs [
      .elementPtr lengthPtr .i32 array [.const 0],
      .load length .i32 (.reg lengthPtr)]
    ++ highGuard
    ++ Code.ofInstrs [
      .arith position .add .i32 index (.const 1),
      .elementPtr element .i32 array [.reg position]]
  return (code, .reg element)

/-- The address of a field of the object that the method belongs to. -/
def fieldPtr (Γ : Context) (name : String) (ty : Ty) : Lower (Code × Operand) := do
  let some className := Γ.className | throw (.fieldOutsideClass name)
  let some offset := (Γ.analysis.catalog.layout? className).bind (·.fieldOffset? name)
    | throw (.noField className name)
  let byte ← newTemp
  let typed ← newTemp
  let code := Code.ofInstrs [
    .elementPtr byte .i8 (.reg .this) [.const offset],
    .bitcast typed .address (.reg byte) (.ptr ty.ir)]
  return (code, .reg typed)

/-- The address of the variable of a name that is visible at a node. -/
def variablePtr (Γ : Context) (name : String) (node : NodeId) : Lower (Code × Value) := do
  match ← place Γ.analysis.scopes name node with
  | .stack slot ty => return ([], ⟨.reg slot, ty⟩)
  | .field name ty =>
    let (code, ptr) ← fieldPtr Γ name ty
    return (code, ⟨ptr, ty⟩)

/-- A new array of the given length, which must not be negative. -/
def allocArray (length : Operand) : Lower (Code × Value) := do
  let lengthGuard ← guard "arr_alloc" .lt length (.const 0)
  let cells ← newTemp
  let memory ← newTemp
  let array ← newTemp
  let code := lengthGuard ++ Code.ofInstrs [
    .arith cells .add .i32 length (.const 1),
    .call (some memory) (.returns calloc.ret) (.global calloc.name)
      [(.i32, .const 4), (.i32, .reg cells)],
    .bitcast array .address (.reg memory) (.ptr .i32),
    .store .i32 length (.reg array)]
  return (code, ⟨.reg array, .intArray⟩)

/-- A new object, which knows the method table of its class. -/
def allocObject (Γ : Context) (className : String) : Lower (Code × Value) := do
  let some layout := Γ.analysis.catalog.layout? className | throw (.unknownClass className)
  let object ← newTemp
  let header ← newTemp
  let table ← newTemp
  let code := Code.ofInstrs [
    .call (some object) (.returns calloc.ret) (.global calloc.name)
      [(.i32, .const 1), (.i32, .const layout.size)],
    .bitcast header .address (.reg object) (.ptr .tableAddress),
    .elementPtr table (.array layout.slotCount .address) (.global (methodTableName className))
      [.const 0, .const 0],
    .store .tableAddress (.reg table) (.reg header)]
  return (code, ⟨.reg object, .object className⟩)

/-- The slot and the signature of the method that a call on a value of type `owner` reaches. -/
def dispatch (Γ : Context) (owner : Ty) (method : String) : Lower (Nat × MethodSig) := do
  let some className := owner.className? | throw (.callOnNonObject method owner)
  let some layout := Γ.analysis.catalog.layout? className | throw (.noMethodTable className)
  match layout.slot? method, layout.method? method with
  | some slot, some signature => return (slot, signature)
  | _, _ => throw (.noMethod className method)

/-- The method in a slot of an object's method table, as a function that can be called. -/
def loadMethod (owner : Operand) (slot : Nat) (sig : FnSig) : Lower (Code × Operand) := do
  let header ← newTemp
  let table ← newTemp
  let slotPtr ← newTemp
  let entry ← newTemp
  let function ← newTemp
  let code := Code.ofInstrs [
    .bitcast header .address owner (.ptr .tableAddress),
    .load table .tableAddress (.reg header),
    .elementPtr slotPtr .address (.reg table) [.const slot],
    .load entry .address (.reg slotPtr),
    .methodCast function (.reg entry) sig.ty]
  return (code, .reg function)

/-- The instruction of an operator on numbers. -/
def operation (op : BinOp) (result : Reg) (lhs rhs : Operand) : Instr :=
  match op with
  | .and | .less => .compare result .lt .i32 lhs rhs
  | .add => .arith result .add .i32 lhs rhs
  | .sub => .arith result .sub .i32 lhs rhs
  | .mul => .arith result .mul .i32 lhs rhs

end Lower

open Lower

mutual

/-- The code of an expression and its value. -/
def Expr.lower (Γ : Context) : Expr → Lower (Code × Value)
  | .binary _ .and left right => do
    let (leftCode, leftValue) ← left.lower Γ
    let checkLeft ← newLabel "andcond"
    let evalRight ← newLabel "andcond"
    let rightDone ← newLabel "andcond"
    let join ← newLabel "andcond"
    let (rightCode, rightValue) ← right.lower Γ
    let result ← newTemp
    let code := leftCode
      ++ [.instr (.branch checkLeft), .label checkLeft,
        .instr (.branchIf leftValue.operand evalRight join), .label evalRight]
      ++ rightCode
      ++ [.instr (.branch rightDone), .label rightDone, .instr (.branch join), .label join,
        .instr (.phi result .i1 [(.const 0, checkLeft), (rightValue.operand, rightDone)])]
    return (code, ⟨.reg result, .boolean⟩)
  | .binary _ op left right => do
    let (leftCode, leftValue) ← left.lower Γ
    let (rightCode, rightValue) ← right.lower Γ
    let result ← newTemp
    let code := leftCode ++ rightCode
      ++ [.instr (operation op result leftValue.operand rightValue.operand)]
    return (code, ⟨.reg result, if op = .less then .boolean else .int⟩)
  | .element _ array index => do
    let (arrayCode, arrayValue) ← array.lower Γ
    let (indexCode, indexValue) ← index.lower Γ
    let (elementCode, ptr) ← elementPtr arrayValue.operand indexValue.operand
    let result ← newTemp
    let code := arrayCode ++ indexCode ++ elementCode ++ [.instr (.load result .i32 ptr)]
    return (code, ⟨.reg result, .int⟩)
  | .length _ array => do
    let (arrayCode, arrayValue) ← array.lower Γ
    let result ← newTemp
    return (arrayCode ++ [.instr (.load result .i32 arrayValue.operand)], ⟨.reg result, .int⟩)
  | .call _ owner method args => do
    let (ownerCode, ownerValue) ← owner.lower Γ
    let (slot, signature) ← dispatch Γ ownerValue.ty method
    let sig := FnSig.ofMethod signature
    let (methodCode, function) ← loadMethod ownerValue.operand slot sig
    let (argsCode, actuals) ← Expr.lowerArgs Γ args (signature.formalTypes.map Ty.ir)
    let result ← newTemp
    let code := ownerCode ++ methodCode ++ argsCode
      ++ [.instr (.call (some result) (.returns sig.ret) function
        ((.address, ownerValue.operand) :: actuals))]
    return (code, ⟨.reg result, signature.ret⟩)
  | .int _ value => return ([], ⟨.const value, .int⟩)
  | .bool _ value => return ([], ⟨.const (if value then 1 else 0), .boolean⟩)
  | .var node name => do
    let (code, ptr) ← variablePtr Γ name node.id
    let result ← newTemp
    return (code ++ [.instr (.load result ptr.ty.ir ptr.operand)], ⟨.reg result, ptr.ty⟩)
  | .this _ =>
    match Γ.className with
    | some className => return ([], ⟨.reg .this, .object className⟩)
    | none => throw .thisInMain
  | .newArray _ size => do
    let (sizeCode, sizeValue) ← size.lower Γ
    let (arrayCode, array) ← allocArray sizeValue.operand
    return (sizeCode ++ arrayCode, array)
  | .newObject _ className => allocObject Γ className
  | .not _ operand => do
    let (code, value) ← operand.lower Γ
    let result ← newTemp
    return (code ++ [.instr (.arith result .sub .i1 (.const 1) value.operand)],
      ⟨.reg result, .boolean⟩)

/-- The code of arguments, one after the other, and their values with the types of the parameters.
Arguments without a parameter have no code. -/
def Expr.lowerArgs (Γ : Context) : List Expr → List IrTy → Lower (Code × List (IrTy × Operand))
  | arg :: args, ty :: tys => do
    let (argCode, value) ← arg.lower Γ
    let (argsCode, actuals) ← Expr.lowerArgs Γ args tys
    return (argCode ++ argsCode, (ty, value.operand) :: actuals)
  | _, _ => return ([], [])

end

end Demitasse
