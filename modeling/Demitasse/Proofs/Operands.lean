import Demitasse.Ir.Module
import Demitasse.Proofs.Blocks

/-! What instructions define and what they read, with the types that their text gives: an instruction says of
every operand what it takes it for, and the instruction that defines a register fixes what the register is. -/

namespace Demitasse

/-- What an operand can be. -/
inductive OperandTy where
  | value (ty : IrTy)
  /-- the address of a function -/
  | function (ret : IrTy) (params : List IrTy) (isVariadic : Bool)
deriving DecidableEq

/-- The part of a type that is reached by so many indices. Only arrays have parts. -/
def IrTy.part? : IrTy → Nat → Option IrTy
  | ty, 0 => some ty
  | .array _ elem, n + 1 => elem.part? n
  | _, _ + 1 => none

/-- What a callee with arguments of the given types is taken for. -/
def CalleeTy.operandTy : CalleeTy → List IrTy → OperandTy
  | .returns ret, args => .function ret args false
  | .variadic ret fixed, _ => .function ret fixed true

/-- The type of a callee's result. -/
def CalleeTy.ret : CalleeTy → IrTy
  | .returns ret | .variadic ret _ => ret

/-- What the address of a function of some type is. -/
def FnTy.operandTy (ty : FnTy) : OperandTy :=
  .function ty.ret ty.params false

/-- What the address of a function is. -/
def FnSig.operandTy (s : FnSig) : OperandTy :=
  s.ty.operandTy

theorem IrTy.address_ne_void : address ≠ .void :=
  IrTy.noConfusion

theorem Ty.ir_ne_void (ty : Ty) : ty.ir ≠ .void := by
  cases ty <;> nofun

/-- The register that an operand is. -/
def Operand.reg? : Operand → Option Reg
  | .reg r => some r
  | .const _ | .global _ => none

namespace Instr

/-- The operands of an instruction and what it takes them for. -/
def operands : Instr → List (Operand × OperandTy)
  | .arith _ _ ty lhs rhs | .compare _ _ ty lhs rhs => [(lhs, .value ty), (rhs, .value ty)]
  | .load _ ty ptr => [(ptr, .value (.ptr ty))]
  | .store ty value ptr => [(value, .value ty), (ptr, .value (.ptr ty))]
  | .elementPtr _ elem ptr indices => (ptr, .value (.ptr elem)) :: indices.map (·, .value .i32)
  | .bitcast _ source value _ => [(value, .value source)]
  | .methodCast _ value _ => [(value, .value .address)]
  | .call _ ty callee args =>
    (callee, ty.operandTy (args.map (·.1))) :: args.map fun arg => (arg.2, .value arg.1)
  | .phi _ ty incoming => incoming.map fun v => (v.1, .value ty)
  | .branchIf cond _ _ => [(cond, .value .i1)]
  | .ret ty value => [(value, .value ty)]
  | .alloca .. | .branch _ | .retVoid => []

/-- The register that an instruction defines, and what it is. The first index of an address goes over equal
things in a row, the others into arrays. What a call without a result returns is not kept. -/
def definition? : Instr → Option (Reg × OperandTy)
  | .arith result _ ty _ _ | .load result ty _ | .phi result ty _ => some (result, .value ty)
  | .compare result .. => some (result, .value .i1)
  | .alloca result ty => some (result, .value (.ptr ty))
  | .elementPtr result elem _ indices =>
    (elem.part? (indices.length - 1)).map fun part => (result, .value (.ptr part))
  | .bitcast result _ _ target => some (result, .value target)
  | .methodCast result _ target => some (result, target.operandTy)
  | .call (some result) ty _ _ => if ty = .returns .void then none else some (result, .value ty.ret)
  | .call none .. | .store .. | .branch _ | .branchIf .. | .ret .. | .retVoid => none

/-- The register that an instruction defines. -/
def result? (i : Instr) : Option Reg :=
  i.definition?.map (·.1)

theorem result?_call {ty : CalleeTy} (h : ty ≠ .returns .void) (result : Reg) (callee : Operand)
    (args : List (IrTy × Operand)) : (call (some result) ty callee args).result? = some result := by
  rw [result?, definition?, if_neg h]
  rfl

/-- The registers whose values an instruction reads when control comes to it. Those that a choice names are
read before, at the end of the block that control comes from. -/
def reads (i : Instr) : List Reg :=
  if i.isPhi then [] else i.operands.filterMap (·.1.reg?)

theorem mem_reads {i : Instr} {r : Reg} :
    r ∈ i.reads ↔ i.isPhi = false ∧ ∃ ty, (.reg r, ty) ∈ i.operands := by
  rw [reads]
  cases i.isPhi with
  | true => simp
  | false =>
      simp only [Bool.false_eq_true, if_false, List.mem_filterMap, true_and]
      constructor
      · rintro ⟨⟨o, ty⟩, hmem, ho⟩
        cases o with
        | reg q =>
            cases ho
            exact ⟨ty, hmem⟩
        | _ => cases ho
      · rintro ⟨ty, hmem⟩
        exact ⟨_, hmem, rfl⟩

end Instr

/-- The instruction that a line is. -/
def Line.instr? : Line → Option Instr
  | .label _ => none
  | .instr i => some i

namespace Code

/-- The instructions of some code. -/
def instrs (c : Code) : List Instr :=
  c.filterMap Line.instr?

/-- The registers that some code defines, and what they are. -/
def definitions (c : Code) : List (Reg × OperandTy) :=
  c.instrs.filterMap Instr.definition?

section
variable {l : Label} {i : Instr} {c d : Code}

@[simp] theorem instrs_nil : instrs [] = [] :=
  rfl

@[simp] theorem instrs_label : instrs (.label l :: c) = instrs c :=
  rfl

@[simp] theorem instrs_instr : instrs (.instr i :: c) = i :: instrs c :=
  rfl

@[simp] theorem instrs_append : instrs (c ++ d) = instrs c ++ instrs d :=
  List.filterMap_append

theorem flatMap_body_blocksFrom (x : Option Label) (c : Code) :
    (c.blocksFrom x).flatMap Block.body = c.instrs := by
  induction c generalizing x with
  | nil => rfl
  | cons line c ih =>
      cases line with
      | label l => exact ih (some l)
      | instr i => exact congrArg (i :: ·) (ih x)

end

end Code

/-- The registers of a function and what they are: its parameters and what its code defines. -/
def IrFunction.definitions (f : IrFunction) : List (Reg × OperandTy) :=
  f.sig.params.map (fun p => (.named p.2, .value p.1)) ++ f.code.definitions

end Demitasse
