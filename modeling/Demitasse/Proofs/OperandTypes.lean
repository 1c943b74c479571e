import Demitasse.Proofs.Overrides
import Demitasse.Proofs.ReadBack
import Demitasse.Proofs.SingleAssignment
import Demitasse.Proofs.Typing

/-!
Types in the code. Every register of a function is defined with one type, and every instruction uses it at that
type. The types that an instruction is written with come from the value's own type in one place and from the
variable, the parameter or the operator in another; they agree because types that may stand for each other have
one representation. What a value is said to be is the type that the checks gave to its expression.
-/

namespace Demitasse

open Lower

/-- What is known about the operands of a function's instructions. -/
structure TypeEnv where
  registers : List (Reg × OperandTy)
  globals : List (String × OperandTy)
  /-- the type of the function's result -/
  ret : IrTy

/-- The arguments of a call with a variable number of them start with the fixed ones, and what is returned is
what the function promises. -/
def Instr.Complies (ret : IrTy) : Instr → Prop
  | .call _ (.variadic _ fixed) _ args => fixed <+: args.map (·.1)
  | .ret ty _ => ty = ret
  | .retVoid => ret = .void
  | _ => True

namespace TypeEnv

/-- An operand may be used at a type: a register at the one that it is defined with, a number as one of 32 bits,
and a truth value as a single bit. -/
def HasType (E : TypeEnv) : Operand → OperandTy → Prop
  | .reg r, ty => (r, ty) ∈ E.registers
  | .const n, ty => ty = .value .i32 ∨ ty = .value .i1 ∧ n ≤ 1
  | .global name, ty => (name, ty) ∈ E.globals

/-- An instruction uses its operands at their types. -/
def Accepts (E : TypeEnv) (i : Instr) : Prop :=
  (∀ u ∈ i.operands, E.HasType u.1 u.2) ∧ i.Complies E.ret

def AcceptsAll (E : TypeEnv) (c : Code) : Prop :=
  ∀ i ∈ c.instrs, E.Accepts i

/-- The registers that some code defines are known with their types. -/
def Knows (E : TypeEnv) (c : Code) : Prop :=
  c.definitions ⊆ E.registers

section
variable {E : TypeEnv} {r : Reg} {ty : OperandTy} {name : String} {n : Nat} {l : Label} {i : Instr} {c d : Code}

@[simp] theorem hasType_reg : E.HasType (.reg r) ty ↔ (r, ty) ∈ E.registers :=
  Iff.rfl

@[simp] theorem hasType_global : E.HasType (.global name) ty ↔ (name, ty) ∈ E.globals :=
  Iff.rfl

@[simp] theorem hasType_i32 : E.HasType (.const n) (.value .i32) :=
  Or.inl rfl

@[simp] theorem hasType_i1 : E.HasType (.const n) (.value .i1) ↔ n ≤ 1 := by
  simp [HasType]

@[simp] theorem acceptsAll_nil : E.AcceptsAll [] :=
  List.forall_mem_nil _

@[simp] theorem acceptsAll_label : E.AcceptsAll (.label l :: c) ↔ E.AcceptsAll c :=
  Iff.rfl

@[simp] theorem acceptsAll_instr : E.AcceptsAll (.instr i :: c) ↔ E.Accepts i ∧ E.AcceptsAll c :=
  List.forall_mem_cons

@[simp] theorem acceptsAll_append : E.AcceptsAll (c ++ d) ↔ E.AcceptsAll c ∧ E.AcceptsAll d := by
  rw [AcceptsAll, Code.instrs_append, List.forall_mem_append]
  rfl

@[simp] theorem knows_nil : E.Knows [] :=
  List.nil_subset _

@[simp] theorem knows_label : E.Knows (.label l :: c) ↔ E.Knows c :=
  Iff.rfl

@[simp] theorem knows_instr :
    E.Knows (.instr i :: c) ↔ (∀ r, i.definition? = some r → r ∈ E.registers) ∧ E.Knows c := by
  rw [Knows, Code.definitions, Code.instrs_instr, List.filterMap_cons]
  cases i.definition? with
  | none => simp [Knows, Code.definitions]
  | some result => simp [Knows, Code.definitions]

@[simp] theorem knows_append : E.Knows (c ++ d) ↔ E.Knows c ∧ E.Knows d := by
  rw [Knows, Code.definitions, Code.instrs_append, List.filterMap_append, List.append_subset]
  rfl

theorem Knows.snoc {d : Reg × OperandTy} (h : E.Knows (c ++ [.instr i])) (hd : i.definition? = some d) :
    E.Knows c ∧ d ∈ E.registers := by
  rw [knows_append, knows_instr] at h
  exact ⟨h.1, h.2.1 d hd⟩

theorem AcceptsAll.snoc (h : E.AcceptsAll c) (hi : E.Accepts i) : E.AcceptsAll (c ++ [.instr i]) :=
  acceptsAll_append.mpr ⟨h, acceptsAll_instr.mpr ⟨hi, acceptsAll_nil⟩⟩

end

end TypeEnv

/-- The global names that lowering uses are known: what stands in front of every module, and the method
tables of the classes. -/
structure TypeEnv.Declares (E : TypeEnv) (a : Analysis) : Prop where
  externals : ∀ e ∈ preamble.externals, (e.name, .function e.ret e.params e.isVariadic) ∈ E.globals
  strings : ∀ s ∈ preamble.strings, (s.name, .value (.ptr s.ty)) ∈ E.globals
  helpers : ∀ f ∈ preamble.helpers, (f.sig.name, f.sig.operandTy) ∈ E.globals
  tables : ∀ C l, a.catalog.layout? C = some l →
    (methodTableName C, .value (.ptr (.array l.slotCount .address))) ∈ E.globals

namespace TypeEnv.Declares

variable {E : TypeEnv} {a : Analysis}

theorem calloc_mem (h : E.Declares a) :
    (calloc.name, .function .address [.i32, .i32] false) ∈ E.globals :=
  h.externals _ (by simp [preamble])

theorem printInt_mem (h : E.Declares a) : (printInt.sig.name, .function .void [.i32] false) ∈ E.globals :=
  h.helpers _ (by simp [preamble])

theorem throwOutOfBounds_mem (h : E.Declares a) :
    (throwOutOfBounds.sig.name, .function .void [] false) ∈ E.globals :=
  h.helpers _ (by simp [preamble])

end TypeEnv.Declares

/-- What lowering finds for names, classes and methods has the types that the checks found. -/
structure Context.TypedIn (Γ : Context) (ids : List NodeId) (slots : List (NodeId × Reg)) (E : TypeEnv) : Prop where
  provides : Γ.Provides ids
  declares : E.Declares Γ.analysis
  this : ∀ C, Γ.className = some C → E.HasType (.reg .this) (.value .address)
  slot : ∀ id ∈ ids, ∀ name b, Γ.analysis.scopes.resolve? id name = some b → b.storage ≠ .field →
    ∃ r, slots.lookup b.decl = some r ∧ E.HasType (.reg r) (.value (.ptr b.ty.ir))

section
variable {Γ : Context} {ids : List NodeId} {slots : List (NodeId × Reg)} {E : TypeEnv} {names names' : Names}
  {code : Code}

open TypeEnv

theorem accepts_elementCode (hΓ : Γ.TypedIn ids slots E) {array index : Operand}
    (harray : E.HasType array (.value (.ptr .i32))) (hindex : E.HasType index (.value .i32))
    (hknows : E.Knows (elementCode names array index)) :
    E.AcceptsAll (elementCode names array index) ∧
      E.HasType (.reg (.temp (names.nextTemp + 5))) (.value (.ptr .i32)) := by
  have hregs : (.temp names.nextTemp, .value .i1) ∈ E.registers ∧
      (.temp (names.nextTemp + 1), .value (.ptr .i32)) ∈ E.registers ∧
      (.temp (names.nextTemp + 2), .value .i32) ∈ E.registers ∧
      (.temp (names.nextTemp + 3), .value .i1) ∈ E.registers ∧
      (.temp (names.nextTemp + 4), .value .i32) ∈ E.registers ∧
      (.temp (names.nextTemp + 5), .value (.ptr .i32)) ∈ E.registers := by
    simpa [elementCode, Code.guarded, Code.ofInstrs, throwCall, Instr.definition?, IrTy.part?] using hknows
  simp [elementCode, Code.guarded, Code.ofInstrs, throwCall, Accepts, Instr.operands, Instr.Complies,
    CalleeTy.operandTy, harray, hindex, hregs, hΓ.declares.throwOutOfBounds_mem]

theorem accepts_arrayCode (hΓ : Γ.TypedIn ids slots E) {length : Operand} (hlength : E.HasType length (.value .i32))
    (hknows : E.Knows (arrayCode names length)) :
    E.AcceptsAll (arrayCode names length) ∧
      E.HasType (.reg (.temp (names.nextTemp + 3))) (.value (.ptr .i32)) := by
  have hregs : (.temp names.nextTemp, .value .i1) ∈ E.registers ∧
      (.temp (names.nextTemp + 1), .value .i32) ∈ E.registers ∧
      (.temp (names.nextTemp + 2), .value .address) ∈ E.registers ∧
      (.temp (names.nextTemp + 3), .value (.ptr .i32)) ∈ E.registers := by
    simpa [arrayCode, Code.guarded, Code.ofInstrs, throwCall, Instr.definition?, CalleeTy.ret,
      IrTy.address_ne_void] using hknows
  simp [arrayCode, Code.guarded, Code.ofInstrs, throwCall, Accepts, Instr.operands, Instr.Complies,
    CalleeTy.operandTy, hlength, hregs, hΓ.declares.throwOutOfBounds_mem, hΓ.declares.calloc_mem]

theorem accepts_objectCode (hΓ : Γ.TypedIn ids slots E) {className : String} {layout : Layout}
    (hl : Γ.analysis.catalog.layout? className = some layout)
    (hknows : E.Knows (objectCode names className layout)) :
    E.AcceptsAll (objectCode names className layout) ∧
      E.HasType (.reg (.temp names.nextTemp)) (.value .address) := by
  have htable := hΓ.declares.tables className layout hl
  have hregs : (.temp names.nextTemp, .value .address) ∈ E.registers ∧
      (.temp (names.nextTemp + 1), .value (.ptr .tableAddress)) ∈ E.registers ∧
      (.temp (names.nextTemp + 2), .value .tableAddress) ∈ E.registers := by
    simpa [objectCode, Code.ofInstrs, Instr.definition?, IrTy.tableAddress, IrTy.part?, CalleeTy.ret,
      IrTy.address_ne_void] using hknows
  simp [objectCode, Code.ofInstrs, Accepts, Instr.operands, Instr.Complies, CalleeTy.operandTy, htable, hregs,
    hΓ.declares.calloc_mem]

theorem accepts_methodCode {owner : Operand} (howner : E.HasType owner (.value .address)) {slot : Nat} {sig : FnSig}
    (hknows : E.Knows (methodCode names owner slot sig)) :
    E.AcceptsAll (methodCode names owner slot sig) ∧
      E.HasType (.reg (.temp (names.nextTemp + 4))) sig.operandTy := by
  have hregs : (.temp names.nextTemp, .value (.ptr .tableAddress)) ∈ E.registers ∧
      (.temp (names.nextTemp + 1), .value .tableAddress) ∈ E.registers ∧
      (.temp (names.nextTemp + 2), .value (.ptr .address)) ∈ E.registers ∧
      (.temp (names.nextTemp + 3), .value .address) ∈ E.registers ∧
      (.temp (names.nextTemp + 4), sig.operandTy) ∈ E.registers := by
    simpa [methodCode, Code.ofInstrs, Instr.definition?, IrTy.tableAddress, IrTy.part?, FnSig.operandTy] using hknows
  rw [IrTy.tableAddress] at hregs
  simp [methodCode, Code.ofInstrs, Accepts, Instr.operands, Instr.Complies, IrTy.tableAddress, howner, hregs]

theorem accepts_fieldCode (hthis : E.HasType (.reg .this) (.value .address)) {offset : Nat} {ty : Ty}
    (hknows : E.Knows (fieldCode names offset ty)) :
    E.AcceptsAll (fieldCode names offset ty) ∧
      E.HasType (.reg (.temp (names.nextTemp + 1))) (.value (.ptr ty.ir)) := by
  have hregs : (.temp names.nextTemp, .value .address) ∈ E.registers ∧
      (.temp (names.nextTemp + 1), .value (.ptr ty.ir)) ∈ E.registers := by
    simpa [fieldCode, Code.ofInstrs, Instr.definition?, IrTy.part?, IrTy.address] using hknows
  have hbyte : (Reg.this, .value (.ptr .i8)) ∈ E.registers := hthis
  simp [fieldCode, Code.ofInstrs, Accepts, Instr.operands, Instr.Complies, hbyte, hregs]

/-- The address of a variable has the type of the variable. -/
theorem accepts_variablePtr (hΓ : Γ.TypedIn ids slots E) {id : NodeId} (hid : id ∈ ids) {name : String}
    {b : VarBinding} (hb : Γ.analysis.scopes.resolve? id name = some b) {ptr : Value}
    (h : (variablePtr Γ name id).run names = .ok ((code, ptr), names')) (hslots : names.slots = slots)
    (hknows : E.Knows code) :
    ptr.ty = b.ty ∧ E.AcceptsAll code ∧ E.HasType ptr.operand (.value (.ptr b.ty.ir)) ∧ names'.slots = slots := by
  obtain ⟨b', hb', hty, ⟨hstack, rfl, hptr, rfl⟩ | ⟨C, offset, _, hC, rfl, hptr, rfl⟩⟩ := variablePtr_eq_ok h
  · cases hb.symm.trans hb'
    obtain ⟨r, hr, hreg⟩ := hΓ.slot id hid name b hb hstack
    rw [← hslots] at hr
    rw [hptr, Names.slot_of_lookup hr]
    exact ⟨hty, acceptsAll_nil, hreg, hslots⟩
  · cases hb.symm.trans hb'
    obtain ⟨hcode, hreg⟩ := accepts_fieldCode (hΓ.this C hC) hknows
    rw [hptr]
    exact ⟨hty, hcode, hreg, hslots⟩

theorem Lower.definition?_operation {op : BinOp} (hop : op ≠ .and) (result : Reg) (lhs rhs : Operand) :
    (operation op result lhs rhs).definition? = some (result, .value op.resultTy.ir) := by
  cases op with
  | and => exact absurd rfl hop
  | _ => rfl

theorem BinOp.ir_operandTy {op : BinOp} (hop : op ≠ .and) : op.operandTy.ir = .i32 := by
  cases op with
  | and => exact absurd rfl hop
  | _ => rfl

theorem Lower.accepts_operation {op : BinOp} {result : Reg} {lhs rhs : Operand} (hlhs : E.HasType lhs (.value .i32))
    (hrhs : E.HasType rhs (.value .i32)) : E.Accepts (operation op result lhs rhs) := by
  refine ⟨?_, by cases op <;> trivial⟩
  rw [operands_operation, List.forall_mem_cons, List.forall_mem_singleton]
  exact ⟨hlhs, hrhs⟩

/-! ### Expressions and statements -/

mutual

/-- The value of an expression has the type that the checks give to the expression, and the code that computes
it uses its operands at their types. -/
theorem Expr.accepts_lower (hΓ : Γ.TypedIn ids slots E) {assigned : List String} : ∀ (e : Expr) {ty : Ty}
    {names names' : Names} {code : Code} {value : Value}, nodeIds e.visits ⊆ ids →
    e.typeOf Γ assigned = .ok ty → (e.lower Γ).run names = .ok ((code, value), names') →
    names.slots = slots → E.Knows code →
    value.ty = ty ∧ E.AcceptsAll code ∧ E.HasType value.operand (.value ty.ir) ∧ names'.slots = slots
  | .binary node op left right, ty, names, names', code, value, hids, hty, h, hslots, hknows => by
      rw [Expr.visits, nodeIds_cons_of_some rfl, nodeIds_append, List.cons_subset, List.append_subset] at hids
      obtain ⟨⟨leftTy, hleftTy, hleftFits⟩, ⟨rightTy, hrightTy, hrightFits⟩, rfl⟩ := Expr.rule_of_typeOf hty
      by_cases hop : op = .and
      · subst hop
        obtain ⟨leftCode, leftValue, names₁, rightCode, rightValue, names₂, hleft, hright, rfl, rfl, rfl⟩ :=
          Expr.lower_and_eq_ok h
        obtain ⟨hleftKnows, hrightKnows, hresult⟩ : E.Knows leftCode ∧ E.Knows rightCode ∧
            (.temp names₂.nextTemp, .value .i1) ∈ E.registers := by
          simpa [Code.conjunction, Instr.definition?] using hknows
        obtain ⟨_, hleft, hleftBit, hslots⟩ := left.accepts_lower hΓ hids.2.1 hleftTy hleft hslots hleftKnows
        obtain ⟨_, hright, hrightBit, hslots⟩ := right.accepts_lower hΓ hids.2.2 hrightTy hright hslots hrightKnows
        rw [Forest.ir_eq_of_assignable hleftFits, BinOp.operandTy, Ty.ir] at hleftBit
        rw [Forest.ir_eq_of_assignable hrightFits, BinOp.operandTy, Ty.ir] at hrightBit
        refine ⟨rfl, ?_, hresult, hslots⟩
        simp [Code.conjunction, Accepts, Instr.operands, Instr.Complies, hleft, hright, hleftBit, hrightBit]
      · obtain ⟨leftCode, leftValue, names₁, rightCode, rightValue, names₂, hleft, hright, rfl, rfl, rfl⟩ :=
          Expr.lower_binary_eq_ok hop h
        obtain ⟨hknows, hresult⟩ := hknows.snoc (definition?_operation hop _ _ _)
        rw [knows_append] at hknows
        obtain ⟨_, hleft, hleftValue, hslots⟩ := left.accepts_lower hΓ hids.2.1 hleftTy hleft hslots hknows.1
        obtain ⟨_, hright, hrightValue, hslots⟩ := right.accepts_lower hΓ hids.2.2 hrightTy hright hslots hknows.2
        rw [Forest.ir_eq_of_assignable hleftFits, BinOp.ir_operandTy hop] at hleftValue
        rw [Forest.ir_eq_of_assignable hrightFits, BinOp.ir_operandTy hop] at hrightValue
        refine ⟨BinOp.ite_less hop, ?_, hresult, hslots⟩
        exact .snoc (acceptsAll_append.mpr ⟨hleft, hright⟩) (accepts_operation hleftValue hrightValue)
  | .element node array index, ty, names, names', code, value, hids, hty, h, hslots, hknows => by
      rw [Expr.visits, nodeIds_cons_of_some rfl, nodeIds_append, List.cons_subset, List.append_subset] at hids
      obtain ⟨⟨arrayTy, harrayTy, harrayFits⟩, ⟨indexTy, hindexTy, hindexFits⟩, rfl⟩ :=
        Expr.rule_of_typeOf hty
      obtain ⟨arrayCode, arrayValue, names₁, indexCode, indexValue, names₂, harray, hindex, rfl, rfl, rfl⟩ :=
        Expr.lower_element_eq_ok h
      obtain ⟨hknows, hresult⟩ := hknows.snoc rfl
      rw [knows_append, knows_append] at hknows
      obtain ⟨_, harray, harrayValue, hslots⟩ := array.accepts_lower hΓ hids.2.1 harrayTy harray hslots hknows.1.1
      obtain ⟨_, hindex, hindexValue, hslots⟩ := index.accepts_lower hΓ hids.2.2 hindexTy hindex hslots hknows.1.2
      rw [Forest.ir_eq_of_assignable harrayFits] at harrayValue
      rw [Forest.ir_eq_of_assignable hindexFits] at hindexValue
      obtain ⟨helement, hptr⟩ := accepts_elementCode hΓ harrayValue hindexValue hknows.2
      refine ⟨rfl, .snoc ?_ ⟨?_, trivial⟩, hresult, hslots⟩
      · exact acceptsAll_append.mpr ⟨acceptsAll_append.mpr ⟨harray, hindex⟩, helement⟩
      · exact List.forall_mem_singleton.mpr hptr
  | .length node array, ty, names, names', code, value, hids, hty, h, hslots, hknows => by
      rw [Expr.visits, nodeIds_cons_of_some rfl, List.cons_subset] at hids
      obtain ⟨⟨arrayTy, harrayTy, hfits⟩, rfl⟩ := Expr.rule_of_typeOf hty
      obtain ⟨arrayCode, arrayValue, names₁, harray, rfl, rfl, rfl⟩ := Expr.lower_length_eq_ok h
      obtain ⟨hknows, hresult⟩ := hknows.snoc rfl
      obtain ⟨_, harray, hvalue, hslots⟩ := array.accepts_lower hΓ hids.2 harrayTy harray hslots hknows
      rw [Forest.ir_eq_of_assignable hfits] at hvalue
      exact ⟨rfl, harray.snoc ⟨List.forall_mem_singleton.mpr hvalue, trivial⟩, hresult, hslots⟩
  | .call node owner method args, ty, names, names', code, value, hids, hty, h, hslots, hknows => by
      rw [Expr.visits, nodeIds_cons_of_some rfl, nodeIds_append, List.cons_subset, List.append_subset] at hids
      obtain ⟨C, signature, hownerTy, hmethod, hcount, hargsTy, rfl⟩ := Expr.rule_of_typeOf hty
      obtain ⟨ownerCode, ownerValue, names₁, slot, found, argsCode, actuals, names₂, howner, hdispatch, hargs, rfl,
        rfl, rfl⟩ := Expr.lower_call_eq_ok h
      have hdef : (Instr.call (some (.temp names₂.nextTemp)) (.returns found.ret.ir)
          (.reg (.temp (names₁.nextTemp + 4))) ((.address, ownerValue.operand) :: actuals)).definition? =
            some (.temp names₂.nextTemp, .value found.ret.ir) := by
        simp [Instr.definition?, Ty.ir_ne_void, CalleeTy.ret]
      obtain ⟨hknows, hresult⟩ := hknows.snoc hdef
      rw [knows_append, knows_append] at hknows
      obtain ⟨hobject, howner, hownerValue, hslots⟩ :=
        owner.accepts_lower hΓ hids.2.1 hownerTy howner hslots hknows.1.1
      -- The layout of the class that the checks found the method in has the same method.
      obtain rfl : found = signature := by
        obtain ⟨l, k, hl, hk, hsig⟩ := hΓ.provides.methods C method signature hmethod
        obtain ⟨_, _, hC, hl', _, hfound, _⟩ := dispatch_eq_ok hdispatch
        cases hobject.symm.trans hC
        cases hl.symm.trans hl'
        exact Option.some.inj (hfound.symm.trans hsig)
      obtain ⟨hload, hfunction⟩ := accepts_methodCode hownerValue hknows.1.2
      obtain ⟨hargs, hactuals, htypes, hslots⟩ :=
        Expr.accepts_lowerArgs hΓ args hids.2.2 hcount hargsTy hargs hslots hknows.2
      refine ⟨rfl, .snoc ?_ ⟨?_, trivial⟩, hresult, hslots⟩
      · exact acceptsAll_append.mpr ⟨acceptsAll_append.mpr ⟨howner, hload⟩, hargs⟩
      · rw [Instr.operands, List.forall_mem_cons, List.forall_mem_map, List.forall_mem_cons]
        refine ⟨?_, hownerValue, hactuals⟩
        rw [FnSig.operandTy_ofMethod] at hfunction
        rw [CalleeTy.operandTy, List.map_cons, htypes]
        exact hfunction
  | .int _ _, ty, names, names', code, value, _, hty, h, hslots, _ => by
      obtain rfl := Expr.rule_of_typeOf hty
      rw [Expr.lower] at h
      cases run_pure_eq_ok.mp h
      exact ⟨rfl, acceptsAll_nil, hasType_i32, hslots⟩
  | .bool _ b, ty, names, names', code, value, _, hty, h, hslots, _ => by
      obtain rfl := Expr.rule_of_typeOf hty
      rw [Expr.lower] at h
      cases run_pure_eq_ok.mp h
      refine ⟨rfl, acceptsAll_nil, hasType_i1.mpr ?_, hslots⟩
      cases b <;> decide
  | .var node name, ty, names, names', code, value, hids, hty, h, hslots, hknows => by
      obtain ⟨b, hb, rfl⟩ := Expr.rule_of_typeOf hty
      obtain ⟨ptrCode, ptr, names₁, hptr, rfl, rfl, rfl⟩ := Expr.lower_var_eq_ok h
      obtain ⟨hknows, hresult⟩ := hknows.snoc rfl
      obtain ⟨hptrTy, hptr, hptrValue, hslots⟩ :=
        accepts_variablePtr hΓ (hids List.mem_cons_self) hb hptr hslots hknows
      rw [hptrTy] at hresult ⊢
      exact ⟨rfl, hptr.snoc ⟨List.forall_mem_singleton.mpr hptrValue, trivial⟩, hresult, hslots⟩
  | .this node, ty, names, names', code, value, _, hty, h, hslots, _ => by
      obtain ⟨C, hC, rfl⟩ := Expr.rule_of_typeOf hty
      obtain ⟨C', hC', rfl, rfl, rfl⟩ := Expr.lower_this_eq_ok h
      cases hC.symm.trans hC'
      exact ⟨rfl, acceptsAll_nil, hΓ.this C hC, hslots⟩
  | .newArray node size, ty, names, names', code, value, hids, hty, h, hslots, hknows => by
      rw [Expr.visits, nodeIds_cons_of_some rfl, List.cons_subset] at hids
      obtain ⟨⟨sizeTy, hsizeTy, hfits⟩, rfl⟩ := Expr.rule_of_typeOf hty
      obtain ⟨sizeCode, sizeValue, names₁, hsize, rfl, rfl, rfl⟩ := Expr.lower_newArray_eq_ok h
      rw [knows_append] at hknows
      obtain ⟨_, hsize, hvalue, hslots⟩ := size.accepts_lower hΓ hids.2 hsizeTy hsize hslots hknows.1
      rw [Forest.ir_eq_of_assignable hfits] at hvalue
      obtain ⟨harray, hresult⟩ := accepts_arrayCode hΓ hvalue hknows.2
      exact ⟨rfl, acceptsAll_append.mpr ⟨hsize, harray⟩, hresult, hslots⟩
  | .newObject node className, ty, names, names', code, value, _, hty, h, hslots, hknows => by
      obtain ⟨_, rfl⟩ := Expr.rule_of_typeOf hty
      rw [Expr.lower] at h
      obtain ⟨layout, hl, rfl, rfl, rfl⟩ := allocObject_eq_ok h
      obtain ⟨hobject, hresult⟩ := accepts_objectCode hΓ hl hknows
      exact ⟨rfl, hobject, hresult, hslots⟩
  | .not node operand, ty, names, names', code, value, hids, hty, h, hslots, hknows => by
      rw [Expr.visits, nodeIds_cons_of_some rfl, List.cons_subset] at hids
      obtain ⟨⟨operandTy, hoperandTy, hfits⟩, rfl⟩ := Expr.rule_of_typeOf hty
      obtain ⟨operandCode, operandValue, names₁, hoperand, rfl, rfl, rfl⟩ := Expr.lower_not_eq_ok h
      obtain ⟨hknows, hresult⟩ := hknows.snoc rfl
      obtain ⟨_, hoperand, hvalue, hslots⟩ := operand.accepts_lower hΓ hids.2 hoperandTy hoperand hslots hknows
      rw [Forest.ir_eq_of_assignable hfits] at hvalue
      refine ⟨rfl, hoperand.snoc ⟨?_, trivial⟩, hresult, hslots⟩
      exact List.forall_mem_cons.mpr ⟨hasType_i1.mpr (Nat.le_refl 1), List.forall_mem_singleton.mpr hvalue⟩

/-- The arguments of a call have the types of the parameters. -/
theorem Expr.accepts_lowerArgs (hΓ : Γ.TypedIn ids slots E) {assigned : List String} : ∀ (args : List Expr)
    {formals : List Ty} {names names' : Names} {code : Code} {actuals : List (IrTy × Operand)},
    nodeIds (Expr.visitsAll args) ⊆ ids → formals.length = args.length →
    Expr.checkArgs Γ assigned args formals = .ok () →
    (Expr.lowerArgs Γ args (formals.map Ty.ir)).run names = .ok ((code, actuals), names') →
    names.slots = slots → E.Knows code →
    E.AcceptsAll code ∧ (∀ arg ∈ actuals, E.HasType arg.2 (.value arg.1)) ∧
      actuals.map (·.1) = formals.map Ty.ir ∧ names'.slots = slots
  | [], formal :: _, _, _, _, _, _, hcount, _, _, _, _ => by cases hcount
  | [], [], names, names', code, actuals, _, _, _, h, hslots, _ => by
      rw [Expr.lowerArgs] at h
      · cases run_pure_eq_ok.mp h
        exact ⟨acceptsAll_nil, List.forall_mem_nil _, rfl, hslots⟩
      · simp
  | _ :: _, [], _, _, _, _, _, hcount, _, _, _, _ => by cases hcount
  | arg :: args, formal :: formals, names, names', code, actuals, hids, hcount, hty, h, hslots, hknows => by
      rw [Expr.visitsAll, nodeIds_append, List.append_subset] at hids
      obtain ⟨⟨argTy, hargTy, hfits⟩, hargsTy⟩ := Expr.checkArgs_cons_eq_ok hty
      obtain ⟨argCode, argValue, names₁, argsCode, rest, harg, hargs, rfl, rfl⟩ := Expr.lowerArgs_cons_eq_ok h
      rw [knows_append] at hknows
      obtain ⟨_, harg, hvalue, hslots⟩ := arg.accepts_lower hΓ hids.1 hargTy harg hslots hknows.1
      obtain ⟨hargs, hrest, htypes, hslots⟩ :=
        Expr.accepts_lowerArgs hΓ args hids.2 (Nat.succ.inj hcount) hargsTy hargs hslots hknows.2
      rw [Forest.ir_eq_of_assignable hfits] at hvalue
      refine ⟨acceptsAll_append.mpr ⟨harg, hargs⟩, List.forall_mem_cons.mpr ⟨hvalue, hrest⟩, ?_, hslots⟩
      rw [List.map_cons, List.map_cons, htypes]

end

mutual

/-- The code of a checked statement uses its operands at their types. -/
theorem Stmt.accepts_lower (hΓ : Γ.TypedIn ids slots E) : ∀ (s : Stmt) {assigned after : List String}
    {names names' : Names} {code : Code}, nodeIds s.visits ⊆ ids → s.check Γ assigned = .ok after →
    (s.lower Γ).run names = .ok (code, names') → names.slots = slots → E.Knows code →
    E.AcceptsAll code ∧ names'.slots = slots
  | .block node body, assigned, after, names, names', code, hids, hcheck, h, hslots, hknows => by
      rw [Stmt.visits, nodeIds_cons_of_some rfl, List.cons_subset] at hids
      obtain ⟨_, hbodyCheck⟩ := Stmt.rule_of_check hcheck
      rw [Stmt.lower] at h
      exact Stmt.accepts_lowerAll hΓ body hids.2 hbodyCheck h hslots hknows
  | .ifElse node cond thenBranch elseBranch, assigned, after, names, names', code, hids, hcheck, h, hslots,
      hknows => by
      rw [Stmt.visits, nodeIds_cons_of_some rfl, nodeIds_append, nodeIds_append, List.cons_subset,
        List.append_subset, List.append_subset] at hids
      obtain ⟨⟨condTy, hcondTy, hfits⟩, ⟨_, hthenCheck⟩, _, helseCheck⟩ := Stmt.rule_of_check hcheck
      obtain ⟨condCode, condValue, names₁, thenCode, names₂, elseCode, hcond, hthen, helse, rfl⟩ :=
        Stmt.lower_ifElse_eq_ok h
      obtain ⟨hcondKnows, hthenKnows, helseKnows⟩ : E.Knows condCode ∧ E.Knows thenCode ∧ E.Knows elseCode := by
        simpa [Code.choice, Instr.definition?] using hknows
      obtain ⟨_, hcond, hbit, hslots⟩ := cond.accepts_lower hΓ hids.2.1.1 hcondTy hcond hslots hcondKnows
      obtain ⟨hthen, hslots⟩ := thenBranch.accepts_lower hΓ hids.2.1.2 hthenCheck hthen hslots hthenKnows
      obtain ⟨helse, hslots⟩ := elseBranch.accepts_lower hΓ hids.2.2 helseCheck helse hslots helseKnows
      rw [Forest.ir_eq_of_assignable hfits, Ty.ir] at hbit
      refine ⟨?_, hslots⟩
      simp [Code.choice, Accepts, Instr.operands, Instr.Complies, hcond, hthen, helse, hbit]
  | .loop node cond body, assigned, after, names, names', code, hids, hcheck, h, hslots, hknows => by
      rw [Stmt.visits, nodeIds_cons_of_some rfl, nodeIds_append, List.cons_subset, List.append_subset] at hids
      obtain ⟨⟨condTy, hcondTy, hfits⟩, _, hbodyCheck⟩ := Stmt.rule_of_check hcheck
      obtain ⟨condCode, condValue, names₁, bodyCode, hcond, hbody, rfl⟩ := Stmt.lower_loop_eq_ok h
      obtain ⟨hcondKnows, hbodyKnows⟩ : E.Knows condCode ∧ E.Knows bodyCode := by
        simpa [Code.cycle, Instr.definition?] using hknows
      obtain ⟨_, hcond, hbit, hslots⟩ := cond.accepts_lower hΓ hids.2.1 hcondTy hcond hslots hcondKnows
      obtain ⟨hbody, hslots⟩ := body.accepts_lower hΓ hids.2.2 hbodyCheck hbody hslots hbodyKnows
      rw [Forest.ir_eq_of_assignable hfits, Ty.ir] at hbit
      refine ⟨?_, hslots⟩
      simp [Code.cycle, Accepts, Instr.operands, Instr.Complies, hcond, hbody, hbit]
  | .print node arg, assigned, after, names, names', code, hids, hcheck, h, hslots, hknows => by
      rw [Stmt.visits, nodeIds_cons_of_some rfl, List.cons_subset] at hids
      obtain ⟨argTy, hargTy, hfits⟩ := Stmt.rule_of_check hcheck
      obtain ⟨argCode, argValue, harg, rfl⟩ := Stmt.lower_print_eq_ok h
      rw [knows_append] at hknows
      obtain ⟨_, harg, hvalue, hslots⟩ := arg.accepts_lower hΓ hids.2 hargTy harg hslots hknows.1
      rw [Forest.ir_eq_of_assignable hfits] at hvalue
      refine ⟨harg.snoc ⟨?_, trivial⟩, hslots⟩
      exact List.forall_mem_cons.mpr ⟨hΓ.declares.printInt_mem, List.forall_mem_singleton.mpr hvalue⟩
  | .assign node target value, assigned, after, names, names', code, hids, hcheck, h, hslots, hknows => by
      rw [Stmt.visits, nodeIds_cons_of_some rfl, List.cons_subset] at hids
      obtain ⟨b, hb, valueTy, hvalueTy, hfits⟩ := Stmt.rule_of_check hcheck
      obtain ⟨valueCode, operand, names₁, ptrCode, ptr, hvalue, hptr, rfl⟩ := Stmt.lower_assign_eq_ok h
      rw [knows_append, knows_append] at hknows
      obtain ⟨_, hvalue, hoperand, hslots⟩ := value.accepts_lower hΓ hids.2 hvalueTy hvalue hslots hknows.1.1
      obtain ⟨hptrTy, hptr, hptrOperand, hslots⟩ := accepts_variablePtr hΓ hids.1 hb hptr hslots hknows.1.2
      rw [Forest.ir_eq_of_assignable hfits] at hoperand
      refine ⟨.snoc (acceptsAll_append.mpr ⟨hvalue, hptr⟩) ⟨?_, trivial⟩, hslots⟩
      rw [hptrTy]
      exact List.forall_mem_cons.mpr ⟨hoperand, List.forall_mem_singleton.mpr hptrOperand⟩
  | .assignElement node target index value, assigned, after, names, names', code, hids, hcheck, h, hslots,
      hknows => by
      rw [Stmt.visits, nodeIds_cons_of_some rfl, nodeIds_append, List.cons_subset, List.append_subset] at hids
      obtain ⟨⟨b, hb, harrayTy⟩, ⟨indexTy, hindexTy, hindexFits⟩, valueTy, hvalueTy, hvalueFits⟩ :=
        Stmt.rule_of_check hcheck
      obtain ⟨ptrCode, ptr, names₁, indexCode, indexValue, names₂, valueCode, operand, names₃, hptr, hindex,
        hvalue, rfl, rfl⟩ := Stmt.lower_assignElement_eq_ok h
      obtain ⟨hknows, _⟩ := knows_append.mp hknows
      rw [knows_append, knows_append, knows_append] at hknows
      obtain ⟨⟨⟨hptrKnows, hindexKnows⟩, hvalueKnows⟩, helementKnows⟩ := hknows
      obtain ⟨hptrKnows, harray⟩ := hptrKnows.snoc rfl
      obtain ⟨_, hptr, hptrOperand, hslots⟩ := accepts_variablePtr hΓ hids.1 hb hptr hslots hptrKnows
      obtain ⟨_, hindex, hindexOperand, hslots⟩ := index.accepts_lower hΓ hids.2.1 hindexTy hindex hslots hindexKnows
      obtain ⟨_, hvalue, hoperand, hslots⟩ := value.accepts_lower hΓ hids.2.2 hvalueTy hvalue hslots hvalueKnows
      rw [harrayTy] at hptrOperand
      rw [Forest.ir_eq_of_assignable hindexFits] at hindexOperand
      rw [Forest.ir_eq_of_assignable hvalueFits] at hoperand
      have hload := hptr.snoc (i := .load (.temp names₁.nextTemp) (.ptr .i32) ptr.operand)
        ⟨List.forall_mem_singleton.mpr hptrOperand, trivial⟩
      obtain ⟨helement, helementPtr⟩ := accepts_elementCode hΓ (hasType_reg.mpr harray) hindexOperand helementKnows
      refine ⟨.snoc ?_ ⟨?_, trivial⟩, hslots⟩
      · rw [acceptsAll_append, acceptsAll_append, acceptsAll_append]
        exact ⟨⟨⟨hload, hindex⟩, hvalue⟩, helement⟩
      · exact List.forall_mem_cons.mpr ⟨hoperand, List.forall_mem_singleton.mpr helementPtr⟩

theorem Stmt.accepts_lowerAll (hΓ : Γ.TypedIn ids slots E) : ∀ (ss : List Stmt) {assigned after : List String}
    {names names' : Names} {code : Code}, nodeIds (Stmt.visitsAll ss) ⊆ ids →
    Stmt.checkAll Γ assigned ss = .ok after → (Stmt.lowerAll Γ ss).run names = .ok (code, names') →
    names.slots = slots → E.Knows code → E.AcceptsAll code ∧ names'.slots = slots
  | [], assigned, after, names, names', code, _, _, h, hslots, _ => by
      rw [Stmt.lowerAll] at h
      cases run_pure_eq_ok.mp h
      exact ⟨acceptsAll_nil, hslots⟩
  | s :: rest, assigned, after, names, names', code, hids, hcheck, h, hslots, hknows => by
      rw [Stmt.visitsAll, nodeIds_append, List.append_subset] at hids
      obtain ⟨_, hsCheck, hrestCheck⟩ := Stmt.checkAll_cons_eq_ok hcheck
      obtain ⟨first, names₁, restCode, hs, hrest, rfl⟩ := Stmt.lowerAll_cons_eq_ok h
      rw [knows_append] at hknows
      obtain ⟨hs, hslots⟩ := s.accepts_lower hΓ hids.1 hsCheck hs hslots hknows.1
      obtain ⟨hrest, hslots⟩ := Stmt.accepts_lowerAll hΓ rest hids.2 hrestCheck hrest hslots hknows.2
      exact ⟨acceptsAll_append.mpr ⟨hs, hrest⟩, hslots⟩

end

end

/-! ### Functions -/

/-- Every register of a function is defined once, and every operand is used at the type of its definition. -/
structure IrFunction.WellTyped (globals : List (String × OperandTy)) (f : IrFunction) : Prop where
  once : (f.definitions.map (·.1)).Nodup
  accepts : TypeEnv.AcceptsAll ⟨f.definitions, globals, f.sig.ret⟩ f.code

theorem IrFunction.Ssa.nodup_definitions {f : IrFunction} (h : f.Ssa) : (f.definitions.map (·.1)).Nodup := by
  have honce : ((f.definitions.map (·.1)).map Reg.text).Nodup := by
    rw [List.map_map]
    exact h.once
  exact honce.of_map _

/-- A function's own registers are known in it. -/
theorem IrFunction.knows_code (f : IrFunction) (globals : List (String × OperandTy)) :
    TypeEnv.Knows ⟨f.definitions, globals, f.sig.ret⟩ f.code :=
  List.subset_append_right _ _

theorem formal_mem_definitions {m : MethodDecl} {f : VarDecl} (hf : f ∈ m.formals) (className : String)
    (code : Code) : (.param f.name, .value f.ty.ir) ∈
      IrFunction.definitions ⟨.ofMethod (m.signature className), code⟩ := by
  apply List.mem_append_left
  refine List.mem_map.mpr ⟨(f.ty.ir, "." ++ f.name), ?_, rfl⟩
  exact List.mem_cons_of_mem _ (List.mem_map.mpr ⟨(f.name, f.ty), List.mem_map.mpr ⟨f, hf, rfl⟩, rfl⟩)

theorem stackVar_mem_definitions {m : MethodDecl} {v : VarDecl} (hv : v ∈ m.stackVars) :
    (.named v.name, .value (.ptr v.ty.ir)) ∈ (Code.ofInstrs m.prologue).definitions := by
  rw [Code.definitions, Code.instrs_ofInstrs]
  refine List.mem_filterMap.mpr ⟨.alloca (.named v.name) v.ty.ir, ?_, rfl⟩
  rcases List.mem_append.mp hv with hv | hv
  · exact List.mem_append_left _ (List.mem_flatMap.mpr ⟨v, hv, List.mem_cons_self⟩)
  · exact List.mem_append_right _ (List.mem_map.mpr ⟨v, hv, rfl⟩)

section
variable {a : Analysis} {p : Program} {M : IrModule} {c : ClassDecl} {m : MethodDecl} {f : IrFunction}

open TypeEnv

theorem Analysis.Describes.declares (h : a.Describes p) (hM : p.lower a = .ok M)
    (registers : List (Reg × OperandTy)) (ret : IrTy) : Declares ⟨registers, M.globals, ret⟩ a := by
  obtain ⟨hpreamble, htables, _⟩ := Program.lower_eq_ok hM
  simp only [IrModule.globals, hpreamble, htables]
  refine ⟨fun e he => ?_, fun s hs => ?_, fun f hf => ?_, fun C l hl => ?_⟩
  · refine List.mem_append_left _ (List.mem_append_left _ (List.mem_append_left _ (List.mem_append_left _ ?_)))
    exact List.mem_map.mpr ⟨e, he, rfl⟩
  · refine List.mem_append_left _ (List.mem_append_left _ (List.mem_append_left _ (List.mem_append_right _ ?_)))
    exact List.mem_map.mpr ⟨s, hs, rfl⟩
  · exact List.mem_append_left _ (List.mem_append_left _ (List.mem_append_right _ (List.mem_map.mpr ⟨f, hf, rfl⟩)))
  · have htable := ((h.methodTable_unique hl _).mpr rfl).1
    have hlength : (l.methodTable C).entries.length = l.slotCount := by
      rw [Layout.methodTable, List.length_map, Table.values, List.length_map]
      rfl
    refine List.mem_append_left _ (List.mem_append_right _ (List.mem_map.mpr ⟨_, htable, ?_⟩))
    rw [hlength]
    rfl

theorem MethodDecl.accepts_prologue {E : TypeEnv} (hknows : E.Knows (Code.ofInstrs m.prologue))
    (hparams : ∀ f ∈ m.formals, (.param f.name, .value f.ty.ir) ∈ E.registers) :
    E.AcceptsAll (Code.ofInstrs m.prologue) := by
  have hslots : ∀ v ∈ m.stackVars, (.named v.name, .value (.ptr v.ty.ir)) ∈ E.registers :=
    fun v hv => hknows (stackVar_mem_definitions hv)
  rw [AcceptsAll, Code.instrs_ofInstrs, prologue, List.forall_mem_append]
  constructor
  · intro i hi
    obtain ⟨f, hf, hi⟩ := List.mem_flatMap.mp hi
    rcases List.mem_cons.mp hi with rfl | hi
    · exact ⟨List.forall_mem_nil _, trivial⟩
    · obtain rfl := List.mem_singleton.mp hi
      refine ⟨List.forall_mem_cons.mpr ⟨hparams f hf, List.forall_mem_singleton.mpr ?_⟩, trivial⟩
      exact hslots f (List.mem_append_left _ hf)
  · intro i hi
    obtain ⟨v, _, rfl⟩ := List.mem_map.mp hi
    exact ⟨List.forall_mem_nil _, trivial⟩

/-- In a method, variables are kept at the addresses that its first instructions make. -/
theorem Analysis.Describes.typedIn_method (h : a.Describes p) (hids : (nodeIds p.visits).Nodup)
    (hcheck : p.check a = .ok ()) (hM : p.lower a = .ok M) (hc : c ∈ p.classes) (hm : m ∈ c.methods)
    {registers : List (Reg × OperandTy)} (hthis : (.this, .value .address) ∈ registers)
    (hprologue : (Code.ofInstrs m.prologue).definitions ⊆ registers) (ret : IrTy) :
    Context.TypedIn ⟨a, some c.name⟩ (nodeIds m.visits) m.startNames.slots ⟨registers, M.globals, ret⟩ := by
  refine ⟨h.provides_method hcheck hids hc hm, h.declares hM registers ret, fun _ _ => hthis, ?_⟩
  intro id hid name b hb hstack
  obtain ⟨v, hv, rfl, hdecl, hty⟩ := h.exists_stackVar hids hc hm hid hb hstack
  have hnodup := MethodDecl.nodup_stackVars (Program.nodup_method hids hc hm)
  refine ⟨.named v.name, ?_, ?_⟩
  · rw [← hdecl]
    exact MethodDecl.lookup_startNames hnodup hv
  · rw [← hty]
    exact hprologue (stackVar_mem_definitions hv)

/-- The main function has no variables. -/
theorem Analysis.Describes.typedIn_main (h : a.Describes p) (hids : (nodeIds p.visits).Nodup)
    (hcheck : p.check a = .ok ()) (hM : p.lower a = .ok M) (registers : List (Reg × OperandTy)) (ret : IrTy) :
    Context.TypedIn ⟨a, none⟩ (nodeIds p.main.visits) [] ⟨registers, M.globals, ret⟩ := by
  refine ⟨h.provides_main hcheck hids, h.declares hM registers ret, nofun, fun id hid name b hb => ?_⟩
  rw [h.resolve?_main hids hid] at hb
  cases hb

/-- The function of a checked method. -/
theorem MethodDecl.wellTyped (h : a.Describes p) (hids : (nodeIds p.visits).Nodup) (hcheck : p.check a = .ok ())
    (hM : p.lower a = .ok M) (hc : c ∈ p.classes) (hm : m ∈ c.methods) (hf : m.lower a c.name = .ok f)
    (hssa : f.Ssa) : f.WellTyped M.globals := by
  refine ⟨hssa.nodup_definitions, ?_⟩
  have hknows := f.knows_code M.globals
  have hnodup := MethodDecl.nodup_stackVars (Program.nodup_method hids hc hm)
  obtain ⟨bodyCode, names₁, resultCode, result, names₂, hbody, hresult, rfl⟩ := m.code_of_lower hnodup hf
  obtain ⟨hbodyIds, hresultIds⟩ := m.nodeIds_subset
  obtain ⟨assigned, hbodyCheck, resultTy, hresultTy, hfits⟩ :=
    MethodDecl.checkBody_eq_ok.mp ((Program.check_eq_ok.mp hcheck).2.2 c hc m hm)
  obtain ⟨hknows, _⟩ := knows_append.mp hknows
  obtain ⟨hprologue, hknows⟩ := knows_append.mp hknows
  obtain ⟨hbodyKnows, hresultKnows⟩ := knows_append.mp hknows
  have hΓ := h.typedIn_method hids hcheck hM hc hm List.mem_cons_self hprologue m.returnType.ir
  obtain ⟨hbody, hslots⟩ := Stmt.accepts_lowerAll hΓ m.body hbodyIds hbodyCheck hbody rfl hbodyKnows
  obtain ⟨_, hresult, hvalue, _⟩ :=
    m.result.accepts_lower hΓ hresultIds hresultTy hresult hslots hresultKnows
  rw [Forest.ir_eq_of_assignable hfits] at hvalue
  refine .snoc (acceptsAll_append.mpr ⟨?_, acceptsAll_append.mpr ⟨hbody, hresult⟩⟩) ⟨?_, rfl⟩
  · exact MethodDecl.accepts_prologue hprologue fun f hf => formal_mem_definitions hf c.name _
  · exact List.forall_mem_singleton.mpr hvalue

theorem MainClass.wellTyped (h : a.Describes p) (hids : (nodeIds p.visits).Nodup) (hcheck : p.check a = .ok ())
    (hM : p.lower a = .ok M) (hf : p.main.lower a = .ok f) (hssa : f.Ssa) : f.WellTyped M.globals := by
  refine ⟨hssa.nodup_definitions, ?_⟩
  have hknows := f.knows_code M.globals
  obtain ⟨code, names, hbody, rfl⟩ := MainClass.lower_eq_ok hf
  obtain ⟨_, ⟨assigned, hbodyCheck⟩, _⟩ := Program.check_eq_ok.mp hcheck
  obtain ⟨hknows, _⟩ := knows_append.mp hknows
  have hsub : nodeIds p.main.body.visits ⊆ nodeIds p.main.visits := fun id hid => List.mem_cons_of_mem _ hid
  obtain ⟨hbody, _⟩ :=
    p.main.body.accepts_lower (h.typedIn_main hids hcheck hM _ _) hsub hbodyCheck hbody rfl hknows
  exact hbody.snoc ⟨List.forall_mem_singleton.mpr hasType_i32, rfl⟩

theorem accepts_printText {E : TypeEnv} (hE : E.Declares a) {text : StringConstant} (htext : text ∈ preamble.strings)
    (hstr : (.named "_str", .value .address) ∈ E.registers) {args : List (IrTy × Operand)}
    (hargs : ∀ arg ∈ args, E.HasType arg.2 (.value arg.1)) : E.AcceptsAll (printText text args) := by
  have hprintf := hE.externals printf (by simp [preamble])
  rw [printText, acceptsAll_instr, acceptsAll_instr]
  refine ⟨⟨List.forall_mem_singleton.mpr (hE.strings text htext), trivial⟩, ⟨?_, ?_⟩, acceptsAll_nil⟩
  · rw [Instr.operands, List.forall_mem_cons, List.forall_mem_map, List.forall_mem_cons]
    exact ⟨hprintf, hstr, hargs⟩
  · exact ⟨args.map (·.1), rfl⟩

/-- The functions that stand in front of every module. -/
theorem helpers_wellTyped (h : a.Describes p) (hM : p.lower a = .ok M) :
    ∀ f ∈ preamble.helpers, f.WellTyped M.globals := by
  intro f hf
  refine ⟨(helpers_ssa f hf).nodup_definitions, ?_⟩
  have hE := h.declares hM f.definitions f.sig.ret
  simp only [preamble, List.mem_cons, List.not_mem_nil, or_false] at hf
  rcases hf with rfl | rfl
  · have hstr : (.named "_str", .value .address) ∈ printInt.definitions := by decide
    refine .snoc (accepts_printText hE (by simp [preamble]) hstr ?_) ⟨List.forall_mem_nil _, rfl⟩
    exact List.forall_mem_singleton.mpr List.mem_cons_self
  · have hstr : (.named "_str", .value .address) ∈ throwOutOfBounds.definitions := by decide
    have hexit := hE.externals exit (by simp [preamble])
    refine acceptsAll_append.mpr ⟨accepts_printText hE (by simp [preamble]) hstr (List.forall_mem_nil _), ?_⟩
    rw [acceptsAll_instr, acceptsAll_instr]
    refine ⟨⟨?_, trivial⟩,
      ⟨List.forall_mem_nil _, rfl⟩, acceptsAll_nil⟩
    exact List.forall_mem_cons.mpr ⟨hexit, List.forall_mem_singleton.mpr hasType_i32⟩

/-- All functions of the module of a checked program use their operands at the types of their definitions. -/
theorem Analysis.Describes.wellTyped (h : a.Describes p) (hids : (nodeIds p.visits).Nodup) (hp : p.Identified)
    (hcheck : p.check a = .ok ()) (hM : p.lower a = .ok M) :
    ∀ f ∈ M.preamble.helpers ++ M.functions, f.WellTyped M.globals := by
  obtain ⟨hpreamble, _, hfunctions⟩ := Program.lower_eq_ok hM
  rw [hpreamble, List.forall_mem_append]
  refine ⟨helpers_wellTyped h hM, fun f hf => ?_⟩
  rcases (hfunctions f).mp hf with hmain | ⟨c, hc, m, hm, hmethod⟩
  · exact MainClass.wellTyped h hids hcheck hM hmain (MainClass.ssa h hids hmain)
  · have hssa := MethodDecl.ssa h hids hc hm (hp.vars c hc m hm) (Program.checkDecl_of_check hcheck hc hm) hmethod
    exact MethodDecl.wellTyped h hids hcheck hM hc hm hmethod hssa

end

/-- The checks give one type to an expression, whatever variables have values, and lowering gives the same type
to its value. -/
def Expr.KeepsType (Γ : Context) (e : Expr) : Prop :=
  ∃ ty, (∃ assigned, e.typeOf Γ assigned = .ok ty) ∧
    (∀ assigned ty', e.typeOf Γ assigned = .ok ty' → ty' = ty) ∧
    ∀ names, ∃ code value names', (e.lower Γ).run names = .ok ((code, value), names') ∧ value.ty = ty

theorem Expr.Typed.keepsType {Γ : Context} {ids : List NodeId} (hΓ : Γ.Provides ids) {e : Expr} (h : e.Typed Γ)
    (hids : nodeIds e.visits ⊆ ids) : e.KeepsType Γ := by
  obtain ⟨assigned, ty, hty⟩ := h
  refine ⟨ty, ⟨assigned, hty⟩, fun assigned' ty' hty' => ?_, fun names => ?_⟩
  · obtain ⟨r, _, hrun, hr⟩ := e.succeeds_lower hΓ hids hty .fresh
    obtain ⟨_, _, hrun', hr'⟩ := e.succeeds_lower hΓ hids hty' .fresh
    cases hrun.symm.trans hrun'
    exact hr'.symm.trans hr
  · obtain ⟨⟨code, value⟩, names', hrun, hvalue⟩ := e.succeeds_lower hΓ hids hty names
    exact ⟨code, value, names', hrun, hvalue⟩

/-- In a program that was read and checked, the value of every expression has the type that the checks gave to
the expression. The text that the program is compiled to is the text of a module. Whoever reads it finds the functions
of the module, and in these every operand is used at the type that it is defined with. -/
theorem functions_wellTyped {source : String} {p : Program} {a : Analysis} (hparse : parse source = .ok p)
    (ha : Analysis.ofProgram p = .ok a) (hcheck : p.check a = .ok ()) :
    (∀ d ∈ p.main.body.exprs, ∀ e : Expr, e.Inside d → e.KeepsType ⟨a, none⟩) ∧
    (∀ c ∈ p.classes, ∀ m ∈ c.methods, ∀ d ∈ m.exprs, ∀ e : Expr, e.Inside d → e.KeepsType ⟨a, some c.name⟩) ∧
    ∃ M T, p.lower a = .ok M ∧ compile source = .ok M.render ∧ IrText.read? M.render = some T ∧
      T.functions = M.preamble.helpers ++ M.functions ∧ ∀ f ∈ T.functions, f.WellTyped T.globals := by
  have hids := nodeIds_nodup_of_parse hparse
  have h := Analysis.describes ha
  obtain ⟨_, ⟨_, hmain⟩, hbodies⟩ := Program.check_eq_ok.mp hcheck
  refine ⟨fun d hd e he => ?_, fun c hc m hm d hd e he => ?_, ?_⟩
  · refine ((p.main.body.typed_exprs hmain d hd).inside he).keepsType (h.provides_main hcheck hids) ?_
    have hvisits := p.main.body.visits_subset_of_mem_exprs d hd
    exact nodeIds_subset fun v hv => List.mem_cons_of_mem _ (hvisits (he.visits_subset hv))
  · exact ((MethodDecl.typed_exprs (hbodies c hc m hm) d hd).inside he).keepsType
      (h.provides_method hcheck hids hc hm) (MethodDecl.nodeIds_of_inside hd he)
  · obtain ⟨M, hM⟩ := Program.exists_lower hids ha hcheck
    refine ⟨M, _, hM, compile_of_lower hparse ha hcheck hM, Program.read_lower hparse ha hM, rfl, ?_⟩
    exact h.wellTyped hids (identified_of_parse hparse) hcheck hM

/-- A class with a field, whose method is called on a new object with a sum for its argument. -/
def cellSource : String :=
  "class A\x7bpublic static void main(String[]a)\x7bSystem.out.println(new B().f(1+2));\x7d\x7d " ++
    "class B\x7bint[]v;int f(int n)\x7bv=new int[n];return v[0];\x7d\x7d"

theorem functions_wellTyped_cell : ∃ p a, parse cellSource = .ok p ∧ Analysis.ofProgram p = .ok a ∧
    p.check a = .ok () ∧
    (∀ d ∈ p.main.body.exprs, ∀ e : Expr, e.Inside d → e.KeepsType ⟨a, none⟩) ∧
    (∀ c ∈ p.classes, ∀ m ∈ c.methods, ∀ d ∈ m.exprs, ∀ e : Expr, e.Inside d → e.KeepsType ⟨a, some c.name⟩) ∧
    ∃ M T, p.lower a = .ok M ∧ compile cellSource = .ok M.render ∧ IrText.read? M.render = some T ∧
      T.functions = M.preamble.helpers ++ M.functions ∧ ∀ f ∈ T.functions, f.WellTyped T.globals := by
  have hvalid : (isValid cellSource).toOption = some true := by decide +kernel
  obtain ⟨p, a, hparse, ha, hcheck⟩ := accepted_of_isValid hvalid
  exact ⟨p, a, hparse, ha, hcheck, functions_wellTyped hparse ha hcheck⟩

end Demitasse
