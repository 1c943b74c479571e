import Demitasse.Lower.Program
import Demitasse.Proofs.Outcome

/-! What lowering emits, form by form. Steps that cannot fail are given by their results; for the others it
is said what a run that succeeds has found and which code it has put together from the code of its parts. -/

namespace Demitasse

/-! Every form of code with labels is a function of the first label number that it uses. -/

namespace Code

@[simp] theorem ofInstrs_nil : ofInstrs [] = [] :=
  rfl

@[simp] theorem ofInstrs_cons {i : Instr} {is : List Instr} : ofInstrs (i :: is) = .instr i :: ofInstrs is :=
  rfl

theorem ofInstrs_append (is js : List Instr) : ofInstrs (is ++ js) = ofInstrs is ++ ofInstrs js :=
  List.map_append

/-- Code that runs only if a condition holds, with the numbers `n` and `n + 1` for its labels. -/
def guarded (stem : String) (n : Nat) (cond : Operand) (body : Code) : Code :=
  [.instr (.branchIf cond ⟨stem, n⟩ ⟨stem, n + 1⟩), .label ⟨stem, n⟩]
    ++ body
    ++ [.instr (.branch ⟨stem, n + 1⟩), .label ⟨stem, n + 1⟩]

/-- One of two codes, as a condition says. -/
def choice (n : Nat) (cond : Operand) (thenCode elseCode : Code) : Code :=
  [.instr (.branchIf cond ⟨"if", n⟩ ⟨"if", n + 1⟩), .label ⟨"if", n⟩]
    ++ thenCode
    ++ [.instr (.branch ⟨"if", n + 2⟩), .label ⟨"if", n + 1⟩]
    ++ elseCode
    ++ [.instr (.branch ⟨"if", n + 2⟩), .label ⟨"if", n + 2⟩]

/-- Code that is repeated as long as a condition holds. -/
def cycle (n : Nat) (condCode : Code) (cond : Operand) (body : Code) : Code :=
  [.instr (.branch ⟨"loop", n⟩), .label ⟨"loop", n⟩]
    ++ condCode
    ++ [.instr (.branchIf cond ⟨"loop", n + 1⟩ ⟨"loop", n + 2⟩), .label ⟨"loop", n + 1⟩]
    ++ body
    ++ [.instr (.branch ⟨"loop", n⟩), .label ⟨"loop", n + 2⟩]

/-- The conjunction of a value and of what some code computes, which runs only if the value is true. -/
def conjunction (n : Nat) (left : Operand) (rightCode : Code) (right : Operand) (result : Reg) : Code :=
  [.instr (.branch ⟨"andcond", n⟩), .label ⟨"andcond", n⟩,
      .instr (.branchIf left ⟨"andcond", n + 1⟩ ⟨"andcond", n + 3⟩), .label ⟨"andcond", n + 1⟩]
    ++ rightCode
    ++ [.instr (.branch ⟨"andcond", n + 2⟩), .label ⟨"andcond", n + 2⟩,
      .instr (.branch ⟨"andcond", n + 3⟩), .label ⟨"andcond", n + 3⟩,
      .instr (.phi result .i1 [(.const 0, ⟨"andcond", n⟩), (right, ⟨"andcond", n + 2⟩)])]

end Code

namespace Names

/-- Names after some temporaries and labels more. -/
def skip (names : Names) (temps labels : Nat) : Names :=
  { names with nextTemp := names.nextTemp + temps, nextLabel := names.nextLabel + labels }

end Names

namespace Lower

variable {α : Type} {names names' : Names}

theorem run_newTemp_bind (f : Reg → Lower α) :
    (newTemp >>= f).run names = (f (.temp names.nextTemp)).run (names.skip 1 0) :=
  rfl

theorem run_newLabel_bind (stem : String) (f : Label → Lower α) :
    (newLabel stem >>= f).run names = (f ⟨stem, names.nextLabel⟩).run (names.skip 0 1) :=
  rfl

theorem run_slot_bind (name : String) (decl : NodeId) (f : Reg → Lower α) :
    (slot name decl >>= f).run names = (f (names.slot name decl).1).run (names.slot name decl).2 :=
  rfl

/-- The call that reports an access out of bounds. -/
def throwCall : Line :=
  .instr (.call none (.returns .void) (.global throwOutOfBounds.sig.name) [])

/-- The code of a guarded access to an element of an array. -/
def elementCode (names : Names) (array index : Operand) : Code :=
  (.instr (.compare (.temp names.nextTemp) .lt .i32 index (.const 0)) ::
      Code.guarded "oob" names.nextLabel (.reg (.temp names.nextTemp)) [throwCall])
    ++ Code.ofInstrs [
      .elementPtr (.temp (names.nextTemp + 1)) .i32 array [.const 0],
      .load (.temp (names.nextTemp + 2)) .i32 (.reg (.temp (names.nextTemp + 1)))]
    ++ (.instr (.compare (.temp (names.nextTemp + 3)) .le .i32 (.reg (.temp (names.nextTemp + 2))) index) ::
      Code.guarded "oob" (names.nextLabel + 2) (.reg (.temp (names.nextTemp + 3))) [throwCall])
    ++ Code.ofInstrs [
      .arith (.temp (names.nextTemp + 4)) .add .i32 index (.const 1),
      .elementPtr (.temp (names.nextTemp + 5)) .i32 array [.reg (.temp (names.nextTemp + 4))]]

/-- The code that allocates an array. -/
def arrayCode (names : Names) (length : Operand) : Code :=
  (.instr (.compare (.temp names.nextTemp) .lt .i32 length (.const 0)) ::
      Code.guarded "arr_alloc" names.nextLabel (.reg (.temp names.nextTemp)) [throwCall])
    ++ Code.ofInstrs [
      .arith (.temp (names.nextTemp + 1)) .add .i32 length (.const 1),
      .call (some (.temp (names.nextTemp + 2))) (.returns .address) (.global calloc.name)
        [(.i32, .const 4), (.i32, .reg (.temp (names.nextTemp + 1)))],
      .bitcast (.temp (names.nextTemp + 3)) .address (.reg (.temp (names.nextTemp + 2))) (.ptr .i32),
      .store .i32 length (.reg (.temp (names.nextTemp + 3)))]

/-- The code that takes a method out of an object's method table. -/
def methodCode (names : Names) (owner : Operand) (slot : Nat) (sig : FnSig) : Code :=
  Code.ofInstrs [
    .bitcast (.temp names.nextTemp) .address owner (.ptr .tableAddress),
    .load (.temp (names.nextTemp + 1)) .tableAddress (.reg (.temp names.nextTemp)),
    .elementPtr (.temp (names.nextTemp + 2)) .address (.reg (.temp (names.nextTemp + 1))) [.const slot],
    .load (.temp (names.nextTemp + 3)) .address (.reg (.temp (names.nextTemp + 2))),
    .methodCast (.temp (names.nextTemp + 4)) (.reg (.temp (names.nextTemp + 3))) sig.ty]

theorem run_loadMethod (owner : Operand) (slot : Nat) (sig : FnSig) :
    (loadMethod owner slot sig).run names =
      .ok ((methodCode names owner slot sig, .reg (.temp (names.nextTemp + 4))), names.skip 5 0) :=
  rfl

variable {Γ : Context} {name : String} {ty : Ty} {code : Code}

/-- The code of the address of a field at an offset. -/
def fieldCode (names : Names) (offset : Nat) (ty : Ty) : Code :=
  Code.ofInstrs [
    .elementPtr (.temp names.nextTemp) .i8 (.reg .this) [.const offset],
    .bitcast (.temp (names.nextTemp + 1)) .address (.reg (.temp names.nextTemp)) (.ptr ty.ir)]

theorem fieldPtr_eq_ok {ptr : Operand} (h : (fieldPtr Γ name ty).run names = .ok ((code, ptr), names')) :
    ∃ C offset, Γ.className = some C ∧ code = fieldCode names offset ty ∧
      ptr = .reg (.temp (names.nextTemp + 1)) ∧ names' = names.skip 2 0 := by
  simp only [fieldPtr] at h
  cases hC : Γ.className with
  | none =>
      rw [hC] at h
      cases h
  | some C =>
      simp only [hC] at h
      cases hoffset : (Γ.analysis.catalog.layout? C).bind (·.fieldOffset? name) with
      | none =>
          rw [hoffset] at h
          cases h
      | some offset =>
          rw [hoffset] at h
          cases h
          exact ⟨C, offset, rfl, rfl, rfl, rfl⟩

/-- A variable has its address in a register of its own, or inside the object that the method belongs to. -/
theorem variablePtr_eq_ok {node : NodeId} {ptr : Value}
    (h : (variablePtr Γ name node).run names = .ok ((code, ptr), names')) :
    ∃ b, Γ.analysis.scopes.resolve? node name = some b ∧ ptr.ty = b.ty ∧
      ((b.storage ≠ .field ∧ code = [] ∧ ptr.operand = .reg (names.slot name b.decl).1 ∧
          names' = (names.slot name b.decl).2) ∨
        ∃ C offset, b.storage = .field ∧ Γ.className = some C ∧ code = fieldCode names offset b.ty ∧
          ptr.operand = .reg (.temp (names.nextTemp + 1)) ∧ names' = names.skip 2 0) := by
  obtain ⟨found, names₁, hplace, h⟩ := run_bind_eq_ok.mp h
  simp only [place, StateT.run, Names.place] at hplace
  cases hb : Γ.analysis.scopes.resolve? node name with
  | none =>
      rw [hb] at hplace
      cases hplace
  | some b =>
      simp only [hb] at hplace
      refine ⟨b, rfl, ?_⟩
      cases hs : b.storage with
      | field =>
          simp only [hs] at hplace
          cases hplace
          obtain ⟨⟨ptrCode, operand⟩, _, hptr, h⟩ := run_bind_eq_ok.mp h
          cases run_pure_eq_ok.mp h
          obtain ⟨C, offset, hC, rfl, rfl, rfl⟩ := fieldPtr_eq_ok hptr
          exact ⟨rfl, .inr ⟨C, offset, rfl, hC, rfl, rfl, rfl⟩⟩
      | _ =>
          simp only [hs] at hplace
          cases hplace
          cases run_pure_eq_ok.mp h
          exact ⟨rfl, .inl ⟨by simp, rfl, rfl, rfl⟩⟩

/-- The code that allocates an object. -/
def objectCode (names : Names) (className : String) (layout : Layout) : Code :=
  Code.ofInstrs [
    .call (some (.temp names.nextTemp)) (.returns .address) (.global calloc.name)
      [(.i32, .const 1), (.i32, .const layout.size)],
    .bitcast (.temp (names.nextTemp + 1)) .address (.reg (.temp names.nextTemp)) (.ptr .tableAddress),
    .elementPtr (.temp (names.nextTemp + 2)) (.array layout.slotCount .address)
      (.global (methodTableName className)) [.const 0, .const 0],
    .store .tableAddress (.reg (.temp (names.nextTemp + 2))) (.reg (.temp (names.nextTemp + 1)))]

theorem allocObject_eq_ok {className : String} {value : Value}
    (h : (allocObject Γ className).run names = .ok ((code, value), names')) :
    ∃ layout, Γ.analysis.catalog.layout? className = some layout ∧
      code = objectCode names className layout ∧ value = ⟨.reg (.temp names.nextTemp), .object className⟩ ∧
      names' = names.skip 3 0 := by
  simp only [allocObject] at h
  cases hl : Γ.analysis.catalog.layout? className with
  | none =>
      rw [hl] at h
      cases h
  | some layout =>
      rw [hl] at h
      cases h
      exact ⟨layout, rfl, rfl, rfl, rfl⟩

theorem dispatch_eq_ok {owner : Ty} {slot : Nat} {signature : MethodSig}
    (h : (dispatch Γ owner name).run names = .ok ((slot, signature), names')) :
    ∃ C layout, owner = .object C ∧ Γ.analysis.catalog.layout? C = some layout ∧
      layout.slot? name = some slot ∧ layout.method? name = some signature ∧ names' = names := by
  cases owner with
  | object C =>
      simp only [dispatch, Ty.className?] at h
      cases hl : Γ.analysis.catalog.layout? C with
      | none =>
          rw [hl] at h
          cases h
      | some layout =>
          simp only [hl] at h
          cases hslot : layout.slot? name with
          | none =>
              simp only [hslot] at h
              cases h
          | some found =>
              cases hmethod : layout.method? name with
              | none =>
                  simp only [hslot, hmethod] at h
                  cases h
              | some sig =>
                  simp only [hslot, hmethod] at h
                  cases h
                  exact ⟨C, layout, rfl, hl, hslot, hmethod, rfl⟩
  | _ => cases h

end Lower

/-! ### Expressions -/

section
variable {Γ : Context} {node : Node} {names names' : Names} {code : Code} {value : Value}

open Lower

theorem Expr.lower_and_eq_ok {left right : Expr}
    (h : ((Expr.binary node .and left right).lower Γ).run names = .ok ((code, value), names')) :
    ∃ leftCode leftValue names₁ rightCode rightValue names₂,
      (left.lower Γ).run names = .ok ((leftCode, leftValue), names₁) ∧
      (right.lower Γ).run (names₁.skip 0 4) = .ok ((rightCode, rightValue), names₂) ∧
      code = leftCode ++ Code.conjunction names₁.nextLabel leftValue.operand rightCode rightValue.operand
        (.temp names₂.nextTemp) ∧
      value = ⟨.reg (.temp names₂.nextTemp), .boolean⟩ ∧ names' = names₂.skip 1 0 := by
  rw [Expr.lower] at h
  obtain ⟨⟨leftCode, leftValue⟩, names₁, hleft, h⟩ := run_bind_eq_ok.mp h
  simp only [run_newLabel_bind] at h
  obtain ⟨⟨rightCode, rightValue⟩, names₂, hright, h⟩ := run_bind_eq_ok.mp h
  rw [run_newTemp_bind] at h
  cases run_pure_eq_ok.mp h
  refine ⟨leftCode, leftValue, names₁, rightCode, rightValue, names₂, hleft, hright, ?_, rfl, rfl⟩
  simp only [Code.conjunction, Names.skip, List.append_assoc]

theorem Expr.lower_binary_eq_ok {op : BinOp} (hop : op ≠ .and) {left right : Expr}
    (h : ((Expr.binary node op left right).lower Γ).run names = .ok ((code, value), names')) :
    ∃ leftCode leftValue names₁ rightCode rightValue names₂,
      (left.lower Γ).run names = .ok ((leftCode, leftValue), names₁) ∧
      (right.lower Γ).run names₁ = .ok ((rightCode, rightValue), names₂) ∧
      code = leftCode ++ rightCode
        ++ [.instr (operation op (.temp names₂.nextTemp) leftValue.operand rightValue.operand)] ∧
      value = ⟨.reg (.temp names₂.nextTemp), if op = .less then .boolean else .int⟩ ∧
      names' = names₂.skip 1 0 := by
  rw [Expr.lower] at h
  · obtain ⟨⟨leftCode, leftValue⟩, names₁, hleft, h⟩ := run_bind_eq_ok.mp h
    obtain ⟨⟨rightCode, rightValue⟩, names₂, hright, h⟩ := run_bind_eq_ok.mp h
    rw [run_newTemp_bind] at h
    cases run_pure_eq_ok.mp h
    exact ⟨leftCode, leftValue, names₁, rightCode, rightValue, names₂, hleft, hright, rfl, rfl, rfl⟩
  · exact hop

theorem Expr.lower_element_eq_ok {array index : Expr}
    (h : ((Expr.element node array index).lower Γ).run names = .ok ((code, value), names')) :
    ∃ arrayCode arrayValue names₁ indexCode indexValue names₂,
      (array.lower Γ).run names = .ok ((arrayCode, arrayValue), names₁) ∧
      (index.lower Γ).run names₁ = .ok ((indexCode, indexValue), names₂) ∧
      code = arrayCode ++ indexCode ++ elementCode names₂ arrayValue.operand indexValue.operand
        ++ [.instr (.load (.temp (names₂.nextTemp + 6)) .i32 (.reg (.temp (names₂.nextTemp + 5))))] ∧
      value = ⟨.reg (.temp (names₂.nextTemp + 6)), .int⟩ ∧ names' = names₂.skip 7 4 := by
  rw [Expr.lower] at h
  obtain ⟨⟨arrayCode, arrayValue⟩, names₁, harray, h⟩ := run_bind_eq_ok.mp h
  obtain ⟨⟨indexCode, indexValue⟩, names₂, hindex, h⟩ := run_bind_eq_ok.mp h
  cases h
  exact ⟨arrayCode, arrayValue, names₁, indexCode, indexValue, names₂, harray, hindex, rfl, rfl, rfl⟩

theorem Expr.lower_length_eq_ok {array : Expr}
    (h : ((Expr.length node array).lower Γ).run names = .ok ((code, value), names')) :
    ∃ arrayCode arrayValue names₁,
      (array.lower Γ).run names = .ok ((arrayCode, arrayValue), names₁) ∧
      code = arrayCode ++ [.instr (.load (.temp names₁.nextTemp) .i32 arrayValue.operand)] ∧
      value = ⟨.reg (.temp names₁.nextTemp), .int⟩ ∧ names' = names₁.skip 1 0 := by
  rw [Expr.lower] at h
  obtain ⟨⟨arrayCode, arrayValue⟩, names₁, harray, h⟩ := run_bind_eq_ok.mp h
  cases h
  exact ⟨arrayCode, arrayValue, names₁, harray, rfl, rfl, rfl⟩

theorem Expr.lower_call_eq_ok {owner : Expr} {method : String} {args : List Expr}
    (h : ((Expr.call node owner method args).lower Γ).run names = .ok ((code, value), names')) :
    ∃ ownerCode ownerValue names₁ slot signature argsCode actuals names₂,
      (owner.lower Γ).run names = .ok ((ownerCode, ownerValue), names₁) ∧
      (dispatch Γ ownerValue.ty method).run names₁ = .ok ((slot, signature), names₁) ∧
      (Expr.lowerArgs Γ args (signature.formalTypes.map Ty.ir)).run (names₁.skip 5 0) =
        .ok ((argsCode, actuals), names₂) ∧
      code = ownerCode ++ methodCode names₁ ownerValue.operand slot (.ofMethod signature) ++ argsCode
        ++ [.instr (.call (some (.temp names₂.nextTemp)) (.returns signature.ret.ir)
          (.reg (.temp (names₁.nextTemp + 4))) ((.address, ownerValue.operand) :: actuals))] ∧
      value = ⟨.reg (.temp names₂.nextTemp), signature.ret⟩ ∧ names' = names₂.skip 1 0 := by
  rw [Expr.lower] at h
  obtain ⟨⟨ownerCode, ownerValue⟩, names₁, howner, h⟩ := run_bind_eq_ok.mp h
  obtain ⟨⟨slot, signature⟩, _, hdispatch, hcall⟩ := run_bind_eq_ok.mp h
  obtain ⟨_, _, _, _, _, _, rfl⟩ := dispatch_eq_ok hdispatch
  obtain ⟨_, _, hmethod, hcall⟩ := run_bind_eq_ok.mp hcall
  cases (run_loadMethod _ _ _).symm.trans hmethod
  obtain ⟨⟨argsCode, actuals⟩, names₂, hargs, hcall⟩ := run_bind_eq_ok.mp hcall
  cases hcall
  exact ⟨ownerCode, ownerValue, _, slot, signature, argsCode, actuals, names₂, howner, hdispatch, hargs,
    rfl, rfl, rfl⟩

theorem Expr.lower_var_eq_ok {name : String}
    (h : ((Expr.var node name).lower Γ).run names = .ok ((code, value), names')) :
    ∃ ptrCode ptr names₁, (variablePtr Γ name node.id).run names = .ok ((ptrCode, ptr), names₁) ∧
      code = ptrCode ++ [.instr (.load (.temp names₁.nextTemp) ptr.ty.ir ptr.operand)] ∧
      value = ⟨.reg (.temp names₁.nextTemp), ptr.ty⟩ ∧ names' = names₁.skip 1 0 := by
  rw [Expr.lower] at h
  obtain ⟨⟨ptrCode, ptr⟩, names₁, hptr, h⟩ := run_bind_eq_ok.mp h
  cases h
  exact ⟨ptrCode, ptr, names₁, hptr, rfl, rfl, rfl⟩

theorem Expr.lower_this_eq_ok
    (h : ((Expr.this node).lower Γ).run names = .ok ((code, value), names')) :
    ∃ C, Γ.className = some C ∧ code = [] ∧ value = ⟨.reg .this, .object C⟩ ∧ names' = names := by
  rw [Expr.lower] at h
  cases hC : Γ.className with
  | none =>
      rw [hC] at h
      cases h
  | some C =>
      rw [hC] at h
      cases h
      exact ⟨C, rfl, rfl, rfl, rfl⟩

theorem Expr.lower_newArray_eq_ok {size : Expr}
    (h : ((Expr.newArray node size).lower Γ).run names = .ok ((code, value), names')) :
    ∃ sizeCode sizeValue names₁,
      (size.lower Γ).run names = .ok ((sizeCode, sizeValue), names₁) ∧
      code = sizeCode ++ arrayCode names₁ sizeValue.operand ∧
      value = ⟨.reg (.temp (names₁.nextTemp + 3)), .intArray⟩ ∧ names' = names₁.skip 4 2 := by
  rw [Expr.lower] at h
  obtain ⟨⟨sizeCode, sizeValue⟩, names₁, hsize, h⟩ := run_bind_eq_ok.mp h
  cases h
  exact ⟨sizeCode, sizeValue, names₁, hsize, rfl, rfl, rfl⟩

theorem Expr.lower_not_eq_ok {operand : Expr}
    (h : ((Expr.not node operand).lower Γ).run names = .ok ((code, value), names')) :
    ∃ operandCode operandValue names₁,
      (operand.lower Γ).run names = .ok ((operandCode, operandValue), names₁) ∧
      code = operandCode
        ++ [.instr (.arith (.temp names₁.nextTemp) .sub .i1 (.const 1) operandValue.operand)] ∧
      value = ⟨.reg (.temp names₁.nextTemp), .boolean⟩ ∧ names' = names₁.skip 1 0 := by
  rw [Expr.lower] at h
  obtain ⟨⟨operandCode, operandValue⟩, names₁, hoperand, h⟩ := run_bind_eq_ok.mp h
  cases h
  exact ⟨operandCode, operandValue, names₁, hoperand, rfl, rfl, rfl⟩

theorem Expr.lowerArgs_cons_eq_ok {arg : Expr} {args : List Expr} {ty : IrTy} {tys : List IrTy}
    {actuals : List (IrTy × Operand)}
    (h : (Expr.lowerArgs Γ (arg :: args) (ty :: tys)).run names = .ok ((code, actuals), names')) :
    ∃ argCode argValue names₁ argsCode rest,
      (arg.lower Γ).run names = .ok ((argCode, argValue), names₁) ∧
      (Expr.lowerArgs Γ args tys).run names₁ = .ok ((argsCode, rest), names') ∧
      code = argCode ++ argsCode ∧ actuals = (ty, argValue.operand) :: rest := by
  rw [Expr.lowerArgs] at h
  obtain ⟨⟨argCode, argValue⟩, names₁, harg, h⟩ := run_bind_eq_ok.mp h
  obtain ⟨⟨argsCode, rest⟩, names₂, hargs, h⟩ := run_bind_eq_ok.mp h
  cases h
  exact ⟨argCode, argValue, names₁, argsCode, rest, harg, hargs, rfl, rfl⟩

theorem Stmt.lower_ifElse_eq_ok {cond : Expr} {thenBranch elseBranch : Stmt}
    (h : ((Stmt.ifElse node cond thenBranch elseBranch).lower Γ).run names = .ok (code, names')) :
    ∃ condCode condValue names₁ thenCode names₂ elseCode,
      (cond.lower Γ).run names = .ok ((condCode, condValue), names₁) ∧
      (thenBranch.lower Γ).run (names₁.skip 0 3) = .ok (thenCode, names₂) ∧
      (elseBranch.lower Γ).run names₂ = .ok (elseCode, names') ∧
      code = condCode ++ Code.choice names₁.nextLabel condValue.operand thenCode elseCode := by
  rw [Stmt.lower] at h
  obtain ⟨⟨condCode, condValue⟩, names₁, hcond, h⟩ := run_bind_eq_ok.mp h
  simp only [run_newLabel_bind] at h
  obtain ⟨thenCode, names₂, hthen, h⟩ := run_bind_eq_ok.mp h
  obtain ⟨elseCode, names₃, helse, h⟩ := run_bind_eq_ok.mp h
  cases run_pure_eq_ok.mp h
  refine ⟨condCode, condValue, names₁, thenCode, names₂, elseCode, hcond, hthen, helse, ?_⟩
  simp only [Code.choice, Names.skip, List.append_assoc]

theorem Stmt.lower_loop_eq_ok {cond : Expr} {body : Stmt}
    (h : ((Stmt.loop node cond body).lower Γ).run names = .ok (code, names')) :
    ∃ condCode condValue names₁ bodyCode,
      (cond.lower Γ).run (names.skip 0 3) = .ok ((condCode, condValue), names₁) ∧
      (body.lower Γ).run names₁ = .ok (bodyCode, names') ∧
      code = Code.cycle names.nextLabel condCode condValue.operand bodyCode := by
  rw [Stmt.lower] at h
  simp only [run_newLabel_bind] at h
  obtain ⟨⟨condCode, condValue⟩, names₁, hcond, h⟩ := run_bind_eq_ok.mp h
  obtain ⟨bodyCode, names₂, hbody, h⟩ := run_bind_eq_ok.mp h
  cases run_pure_eq_ok.mp h
  exact ⟨condCode, condValue, names₁, bodyCode, hcond, hbody, rfl⟩

theorem Stmt.lower_print_eq_ok {arg : Expr}
    (h : ((Stmt.print node arg).lower Γ).run names = .ok (code, names')) :
    ∃ argCode argValue, (arg.lower Γ).run names = .ok ((argCode, argValue), names') ∧
      code = argCode
        ++ [.instr (.call none (.returns .void) (.global printInt.sig.name) [(.i32, argValue.operand)])] := by
  rw [Stmt.lower] at h
  obtain ⟨⟨argCode, argValue⟩, names₁, harg, h⟩ := run_bind_eq_ok.mp h
  cases h
  exact ⟨argCode, argValue, harg, rfl⟩

theorem Stmt.lower_assign_eq_ok {target : String} {value : Expr}
    (h : ((Stmt.assign node target value).lower Γ).run names = .ok (code, names')) :
    ∃ valueCode operand names₁ ptrCode ptr,
      (value.lower Γ).run names = .ok ((valueCode, operand), names₁) ∧
      (variablePtr Γ target node.id).run names₁ = .ok ((ptrCode, ptr), names') ∧
      code = valueCode ++ ptrCode ++ [.instr (.store ptr.ty.ir operand.operand ptr.operand)] := by
  rw [Stmt.lower] at h
  obtain ⟨⟨valueCode, operand⟩, names₁, hvalue, h⟩ := run_bind_eq_ok.mp h
  obtain ⟨⟨ptrCode, ptr⟩, names₂, hptr, h⟩ := run_bind_eq_ok.mp h
  cases h
  exact ⟨valueCode, operand, names₁, ptrCode, ptr, hvalue, hptr, rfl⟩

theorem Stmt.lower_assignElement_eq_ok {target : String} {index value : Expr}
    (h : ((Stmt.assignElement node target index value).lower Γ).run names = .ok (code, names')) :
    ∃ ptrCode ptr names₁ indexCode indexValue names₂ valueCode operand names₃,
      (variablePtr Γ target node.id).run names = .ok ((ptrCode, ptr), names₁) ∧
      (index.lower Γ).run (names₁.skip 1 0) = .ok ((indexCode, indexValue), names₂) ∧
      (value.lower Γ).run names₂ = .ok ((valueCode, operand), names₃) ∧
      code = ptrCode ++ [.instr (.load (.temp names₁.nextTemp) (.ptr .i32) ptr.operand)] ++ indexCode
        ++ valueCode ++ elementCode names₃ (.reg (.temp names₁.nextTemp)) indexValue.operand
        ++ [.instr (.store .i32 operand.operand (.reg (.temp (names₃.nextTemp + 5))))] ∧
      names' = names₃.skip 6 4 := by
  rw [Stmt.lower] at h
  obtain ⟨⟨ptrCode, ptr⟩, names₁, hptr, h⟩ := run_bind_eq_ok.mp h
  rw [run_newTemp_bind] at h
  obtain ⟨⟨indexCode, indexValue⟩, names₂, hindex, h⟩ := run_bind_eq_ok.mp h
  obtain ⟨⟨valueCode, operand⟩, names₃, hvalue, h⟩ := run_bind_eq_ok.mp h
  cases h
  exact ⟨ptrCode, ptr, names₁, indexCode, indexValue, names₂, valueCode, operand, names₃, hptr, hindex,
    hvalue, rfl, rfl⟩

theorem Stmt.lowerAll_cons_eq_ok {s : Stmt} {rest : List Stmt}
    (h : (Stmt.lowerAll Γ (s :: rest)).run names = .ok (code, names')) :
    ∃ first names₁ restCode, (s.lower Γ).run names = .ok (first, names₁) ∧
      (Stmt.lowerAll Γ rest).run names₁ = .ok (restCode, names') ∧ code = first ++ restCode := by
  rw [Stmt.lowerAll] at h
  obtain ⟨first, names₁, hs, h⟩ := run_bind_eq_ok.mp h
  obtain ⟨restCode, names₂, hrest, h⟩ := run_bind_eq_ok.mp h
  cases h
  exact ⟨first, names₁, restCode, hs, hrest, rfl⟩

end

theorem MethodDecl.lower_eq_ok {a : Analysis} {className : String} {m : MethodDecl} {f : IrFunction}
    (h : m.lower a className = .ok f) :
    ∃ formalsCode names₁ localsCode names₂ bodyCode names₃ resultCode result names₄,
      (lowerFormals m.formals).run .fresh = .ok (formalsCode, names₁) ∧
      (lowerLocals m.locals).run names₁ = .ok (localsCode, names₂) ∧
      (Stmt.lowerAll ⟨a, some className⟩ m.body).run names₂ = .ok (bodyCode, names₃) ∧
      (m.result.lower ⟨a, some className⟩).run names₃ = .ok ((resultCode, result), names₄) ∧
      f = ⟨.ofMethod (m.signature className), formalsCode ++ localsCode ++ bodyCode ++ resultCode
        ++ [.instr (.ret m.returnType.ir result.operand)]⟩ := by
  obtain ⟨code, hcode, h⟩ := bind_eq_ok.mp h
  obtain rfl := pure_eq_ok.mp h
  obtain ⟨names₄, hcode⟩ := run'_eq_ok_iff.mp hcode
  obtain ⟨formalsCode, names₁, hformals, hcode⟩ := run_bind_eq_ok.mp hcode
  obtain ⟨localsCode, names₂, hlocals, hcode⟩ := run_bind_eq_ok.mp hcode
  obtain ⟨bodyCode, names₃, hbody, hcode⟩ := run_bind_eq_ok.mp hcode
  obtain ⟨⟨resultCode, result⟩, _, hresult, hcode⟩ := run_bind_eq_ok.mp hcode
  cases run_pure_eq_ok.mp hcode
  exact ⟨formalsCode, names₁, localsCode, names₂, bodyCode, names₃, resultCode, result, names₄, hformals,
    hlocals, hbody, hresult, rfl⟩

theorem MainClass.lower_eq_ok {a : Analysis} {m : MainClass} {f : IrFunction} (h : m.lower a = .ok f) :
    ∃ code names, (m.body.lower ⟨a, none⟩).run .fresh = .ok (code, names) ∧
      f = ⟨⟨"@main", .i32, []⟩, code ++ [.instr (.ret .i32 (.const 0))]⟩ := by
  obtain ⟨code, hcode, h⟩ := bind_eq_ok.mp h
  obtain rfl := pure_eq_ok.mp h
  obtain ⟨names, hcode⟩ := run'_eq_ok_iff.mp hcode
  exact ⟨code, names, hcode, rfl⟩

/-- Every method has a function. -/
theorem Program.exists_function {p : Program} {a : Analysis} {M : IrModule} (h : p.lower a = .ok M) {c : ClassDecl}
    (hc : c ∈ p.classes) {m : MethodDecl} (hm : m ∈ c.methods) :
    ∃ f ∈ M.functions, m.lower a c.name = .ok f := by
  obtain ⟨main, _, h⟩ := bind_eq_ok.mp h
  obtain ⟨methods, hmethods, h⟩ := bind_eq_ok.mp h
  obtain rfl := pure_eq_ok.mp h
  obtain ⟨fs, hfs⟩ := exists_of_mapM_eq_ok hmethods hc
  obtain ⟨f, hf⟩ := exists_of_mapM_eq_ok hfs hm
  refine ⟨f, List.mem_cons_of_mem _ (List.mem_flatten.mpr ⟨fs, ?_, ?_⟩), hf⟩
  · exact (mem_of_mapM_eq_ok hmethods).mpr ⟨c, hc, hfs⟩
  · exact (mem_of_mapM_eq_ok hfs).mpr ⟨m, hm, hf⟩

/-- The functions of a module are the main function and those of the methods. -/
theorem Program.lower_eq_ok {p : Program} {a : Analysis} {M : IrModule} (h : p.lower a = .ok M) :
    M.preamble = preamble ∧ M.tables = a.catalog.methodTables ∧
      ∀ f, f ∈ M.functions ↔
        p.main.lower a = .ok f ∨ ∃ c ∈ p.classes, ∃ m ∈ c.methods, m.lower a c.name = .ok f := by
  obtain ⟨main, hmain, h⟩ := bind_eq_ok.mp h
  obtain ⟨methods, hmethods, h⟩ := bind_eq_ok.mp h
  obtain rfl := pure_eq_ok.mp h
  refine ⟨rfl, rfl, fun f => ?_⟩
  rw [List.mem_cons, List.mem_flatten, hmain, Except.ok.injEq, eq_comm]
  apply or_congr_right
  constructor
  · rintro ⟨fs, hfs, hf⟩
    obtain ⟨c, hc, hfs⟩ := (mem_of_mapM_eq_ok hmethods).mp hfs
    obtain ⟨m, hm, hf⟩ := (mem_of_mapM_eq_ok hfs).mp hf
    exact ⟨c, hc, m, hm, hf⟩
  · rintro ⟨c, hc, m, hm, hf⟩
    obtain ⟨fs, hfs⟩ := exists_of_mapM_eq_ok hmethods hc
    exact ⟨fs, (mem_of_mapM_eq_ok hmethods).mpr ⟨c, hc, hfs⟩, (mem_of_mapM_eq_ok hfs).mpr ⟨m, hm, hf⟩⟩

end Demitasse
