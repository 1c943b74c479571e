import Demitasse.Ir.Written

/-! Functions of the intermediate language as data. A function's code is a list of labels and
instructions; a block starts at a label and ends with a branch or a return. -/

namespace Demitasse

/-- Registers. -/
inductive Reg where
  /-- an intermediate value -/
  | temp (n : Nat)
  /-- a parameter, or the address of a variable -/
  | named (name : String)
deriving DecidableEq

namespace Reg

/-- A register as it is written. -/
def text : Reg → String
  | .temp n => "%_" ++ toString n
  | .named name => "%" ++ name

/-- The parameter that holds a method's owner. -/
def this : Reg :=
  .named "this"

/-- The parameter that holds the value of a method's parameter. -/
def param (name : String) : Reg :=
  .named ("." ++ name)

end Reg

/-- Labels of blocks. -/
structure Label where
  stem : String
  index : Nat
deriving DecidableEq

/-- A label as it is written, without a mark. -/
def Label.text (l : Label) : String :=
  l.stem ++ "." ++ toString l.index

/-- What an instruction reads. -/
inductive Operand where
  | reg (r : Reg)
  | const (n : Nat)
  /-- a global name, with its mark -/
  | global (name : String)
deriving DecidableEq

/-- An operand as it is written. -/
def Operand.text : Operand → String
  | .reg r => r.text
  | .const n => toString n
  | .global name => name

/-- What a call says about the type of its callee. -/
inductive CalleeTy where
  /-- the type of the result -/
  | returns (ty : IrTy)
  /-- the type of the result and of the parameters before the variable ones -/
  | variadic (ty : IrTy) (fixed : List IrTy)
deriving DecidableEq

/-- A list of parameter types that goes on with parameters of any type. -/
def variadicParams (fixed : List IrTy) : String :=
  Written.commas (fixed.map IrTy.text ++ ["..."])

/-- The callee's type as it is written in a call. -/
def CalleeTy.text : CalleeTy → String
  | .returns ty => ty.text
  | .variadic ty fixed => ty.text ++ " (" ++ variadicParams fixed ++ ")"

/-- Instructions. -/
inductive Instr where
  | arith (result : Reg) (op : ArithOp) (ty : IrTy) (lhs rhs : Operand)
  | compare (result : Reg) (cmp : Comparison) (ty : IrTy) (lhs rhs : Operand)
  | alloca (result : Reg) (ty : IrTy)
  | load (result : Reg) (ty : IrTy) (ptr : Operand)
  | store (ty : IrTy) (value ptr : Operand)
  | elementPtr (result : Reg) (elem : IrTy) (ptr : Operand) (indices : List Operand)
  | bitcast (result : Reg) (source : IrTy) (value : Operand) (target : IrTy)
  /-- the cast of a method table's entry to a function that can be called -/
  | methodCast (result : Reg) (value : Operand) (target : FnTy)
  | call (result : Option Reg) (ty : CalleeTy) (callee : Operand) (args : List (IrTy × Operand))
  | phi (result : Reg) (ty : IrTy) (incoming : List (Operand × Label))
  | branch (target : Label)
  | branchIf (cond : Operand) (ifTrue ifFalse : Label)
  | ret (ty : IrTy) (value : Operand)
  | retVoid
deriving DecidableEq

/-- An instruction as it is written. -/
def Instr.render : Instr → String
  | .arith result op ty lhs rhs => Written.arith result.text op ty lhs.text rhs.text
  | .compare result cmp ty lhs rhs => Written.compare result.text cmp ty lhs.text rhs.text
  | .alloca result ty => Written.alloca result.text ty
  | .load result ty ptr => Written.load result.text ty ptr.text
  | .store ty value ptr => Written.store ty value.text ptr.text
  | .elementPtr result elem ptr indices =>
    Written.elementPtr result.text elem ptr.text (indices.map Operand.text)
  | .bitcast result source value target =>
    Written.bitcast result.text source.text value.text target.text
  | .methodCast result value target =>
    Written.bitcast result.text IrTy.address.text value.text target.pointerText
  | .call result ty callee args =>
    Written.call (result.map Reg.text) ty.text callee.text
      (args.map fun (ty, value) => (ty, value.text))
  | .phi result ty incoming =>
    Written.phi result.text ty (incoming.map fun (value, label) => (value.text, label.text))
  | .branch target => Written.branch target.text
  | .branchIf cond ifTrue ifFalse => Written.branchIf cond.text ifTrue.text ifFalse.text
  | .ret ty value => Written.ret ty value.text
  | .retVoid => Written.retVoid

/-- A line inside a function. -/
inductive Line where
  | label (l : Label)
  | instr (i : Instr)
deriving DecidableEq

/-- A line as it is written. -/
def Line.render : Line → String
  | .label l => Written.label l.text
  | .instr i => i.render

/-- Lines in a row. -/
abbrev Code := List Line

/-- A function with its code. -/
structure IrFunction where
  sig : FnSig
  code : Code
deriving DecidableEq

/-- A function as it is written. -/
def IrFunction.render (f : IrFunction) : String :=
  Written.definition f.sig ++ String.join (f.code.map Line.render) ++ Written.definitionEnd

end Demitasse
