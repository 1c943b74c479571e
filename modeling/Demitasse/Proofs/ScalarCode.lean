import Demitasse.Proofs.Emission
import Demitasse.Proofs.Machine
import Demitasse.Proofs.Soundness
import Demitasse.Proofs.Termination
import Demitasse.Proofs.Variables

/-!
Expressions on numbers and truth values and their code. Where the stack cells of a machine mirror the variables
of a method, the code of an expression leaves in its operand what the expression evaluates to, and changes
nothing but registers that were not in use.
-/

namespace Demitasse

/-- A number or a truth value. -/
inductive Scalar where
  | int (n : BitVec 32)
  | bool (b : Bool)
deriving DecidableEq

namespace Scalar

/-- A scalar in a program. -/
def datum : Scalar → Datum
  | .int n => .int n
  | .bool b => .bool b

/-- A scalar in a register. -/
def word : Scalar → Word
  | .int n => .i32 n
  | .bool b => .i1 (.ofBool b)

/-- The type of a scalar. -/
def ty : Scalar → Ty
  | .int _ => .int
  | .bool _ => .boolean

theorem fits_word (x : Scalar) : x.word.fits x.ty.ir = true := by
  cases x <;> rfl

theorem eq_int {x : Scalar} (h : x.ty = .int) : ∃ n, x = .int n := by
  cases x with
  | int n => exact ⟨n, rfl⟩
  | bool b => cases h

theorem eq_bool {x : Scalar} (h : x.ty = .boolean) : ∃ b, x = .bool b := by
  cases x with
  | int n => cases h
  | bool b => exact ⟨b, rfl⟩

end Scalar

/-- Whether the values of a type are scalars. -/
def Ty.isScalar : Ty → Bool
  | .int | .boolean => true
  | .intArray | .object _ => false

/-- Whether an expression is made of literals, some variables and operators. -/
def Expr.isScalar (vars : List String) : Expr → Bool
  | .binary _ _ left right => left.isScalar vars && right.isScalar vars
  | .int .. | .bool .. => true
  | .var _ name => name ∈ vars
  | .not _ operand => operand.isScalar vars
  | .element .. | .length .. | .call .. | .this _ | .newArray .. | .newObject .. => false

mutual

/-- Whether a statement is made of such expressions, assignments to some variables, output and control. -/
def Stmt.isScalar (vars : List String) : Stmt → Bool
  | .block _ body => Stmt.isScalarAll vars body
  | .ifElse _ cond thenBranch elseBranch =>
    cond.isScalar vars && thenBranch.isScalar vars && elseBranch.isScalar vars
  | .loop _ cond body => cond.isScalar vars && body.isScalar vars
  | .print _ arg => arg.isScalar vars
  | .assign _ target value => target ∈ vars && value.isScalar vars
  | .assignElement .. => false

/-- Whether all statements in a row are of this kind. -/
def Stmt.isScalarAll (vars : List String) : List Stmt → Bool
  | [] => true
  | s :: rest => s.isScalar vars && Stmt.isScalarAll vars rest

end

/-- Whether a method computes with scalars only. -/
def MethodDecl.isScalar (m : MethodDecl) : Bool :=
  let vars := m.stackVars.map (·.name)
  m.stackVars.all (·.ty.isScalar) && Stmt.isScalarAll vars m.body && m.result.isScalar vars

/-- The variables of a method at some nodes: their names differ, they hold scalars, and their addresses are kept in
registers of their names. -/
structure Locals (Γ : Context) (ids : List NodeId) (stack : List (String × VarBinding))
    (slots : List (NodeId × Reg)) : Prop where
  nodup : (stack.map (·.1)).Nodup
  scalar : ∀ e ∈ stack, e.2.ty.isScalar = true
  stored : ∀ e ∈ stack, e.2.storage ≠ .field
  slot : ∀ e ∈ stack, slots.lookup e.2.decl = some (.named e.1)
  resolve : ∀ id ∈ ids, ∀ e ∈ stack, Γ.analysis.scopes.resolve? id e.1 = some e.2

/-- The stack cells of a machine hold what the variables of a method do, and it has printed what was printed since
`base`. -/
structure Matches (stack : List (String × VarBinding)) (assigned : List String) (base : List (BitVec 32))
    (s : Memory) (M : Machine) : Prop where
  address : ∀ (i : Nat) e, stack[i]? = some e → M.regs (.named e.1) = some (.address i)
  value : ∀ (i : Nat) e, stack[i]? = some e → ∃ x : Option Scalar,
    s.vars.find? e.1 = some (x.map Scalar.datum) ∧ M.cells[i]? = some (x.map Scalar.word) ∧
    (∀ y, x = some y → y.ty = e.2.ty) ∧ (x = none → e.2.storage = .local ∧ e.1 ∉ assigned)
  output : s.output = base ++ M.output

section
variable {Γ : Context} {ids : List NodeId} {stack : List (String × VarBinding)} {slots : List (NodeId × Reg)}
  {assigned assigned' : List String} {base : List (BitVec 32)} {s s' : Memory} {M M' : Machine} {names names' : Names}

theorem Matches.keeps (h : Matches stack assigned base s M) {n : Nat} (hM : M.Keeps n M') (hvars : s'.vars = s.vars)
    (houtput : s'.output = s.output) : Matches stack assigned base s' M' := by
  refine ⟨fun i e he => ?_, fun i e he => ?_, ?_⟩
  · rw [hM.regs _ fun _ ht => Reg.noConfusion ht]
    exact h.address i e he
  · rw [hvars, hM.cells]
    exact h.value i e he
  · rw [houtput, hM.output]
    exact h.output

theorem Matches.forget (h : Matches stack assigned' base s M) (hsub : assigned ⊆ assigned') :
    Matches stack assigned base s M := by
  refine ⟨h.address, fun i e he => ?_, h.output⟩
  obtain ⟨x, hfind, hcell, hty, hnone⟩ := h.value i e he
  exact ⟨x, hfind, hcell, hty, fun hx => ⟨(hnone hx).1, fun hmem => (hnone hx).2 (hsub hmem)⟩⟩

/-- The address of a variable is in the register of its name. -/
theorem Locals.variablePtr_eq_ok (h : Locals Γ ids stack slots) {id : NodeId} (hid : id ∈ ids) {name : String}
    (hname : name ∈ stack.map (·.1)) (hslots : names.slots = slots) {code : Code} {ptr : Value}
    (hptr : (Lower.variablePtr Γ name id).run names = .ok ((code, ptr), names')) :
    ∃ (i : Nat) (b : VarBinding), stack[i]? = some (name, b) ∧ Γ.analysis.scopes.resolve? id name = some b ∧
      code = [] ∧ ptr = ⟨.reg (.named name), b.ty⟩ ∧ names' = names := by
  obtain ⟨⟨_, b⟩, he, rfl⟩ := List.mem_map.mp hname
  obtain ⟨i, hi⟩ := List.getElem?_of_mem he
  have hresolve := h.resolve id hid _ he
  obtain ⟨b', hb', hty, hcases⟩ := Lower.variablePtr_eq_ok hptr
  cases hresolve.symm.trans hb'
  have hslot := h.slot _ he
  rw [← hslots] at hslot
  rcases hcases with ⟨_, rfl, hoperand, rfl⟩ | ⟨_, _, hfield, _⟩
  · rw [Names.slot_of_lookup hslot] at hoperand ⊢
    refine ⟨i, b, hi, hresolve, rfl, ?_, rfl⟩
    rw [← hoperand, ← hty]
  · exact absurd hfield (h.stored _ he)

/-- The code of a scalar expression meets no new variables, and its value is in a register that was not in use
before. -/
theorem Locals.lower_expr (h : Locals Γ ids stack slots) : ∀ (e : Expr) {names names' : Names} {code : Code}
    {value : Value}, e.isScalar (stack.map (·.1)) = true → nodeIds e.visits ⊆ ids → names.slots = slots →
    (e.lower Γ).run names = .ok ((code, value), names') →
    names'.slots = slots ∧ names.nextTemp ≤ names'.nextTemp ∧ value.operand.Below names'.nextTemp
  | .binary node op left right, names, names', code, value, hscalar, hids, hslots, hlower => by
      rw [Expr.isScalar, Bool.and_eq_true] at hscalar
      have hpart : ∀ c ∈ (Expr.binary node op left right).children, nodeIds c.visits ⊆ ids := fun c hc =>
        List.Subset.trans (nodeIds_subset (Expr.visits_subset_of_child c hc)) hids
      by_cases hop : op = .and
      · subst hop
        obtain ⟨_, _, names₁, _, _, names₂, hleft, hright, rfl, rfl, rfl⟩ := Expr.lower_and_eq_ok hlower
        obtain ⟨hslots₁, hle₁, _⟩ := h.lower_expr left hscalar.1 (hpart _ (.head _)) hslots hleft
        have hslots₁' : (names₁.skip 0 4).slots = slots := hslots₁
        obtain ⟨hslots₂, hle₂, _⟩ := h.lower_expr right hscalar.2 (hpart _ (.tail _ (.head _))) hslots₁' hright
        exact ⟨hslots₂, Nat.le_succ_of_le (Nat.le_trans hle₁ hle₂), Nat.lt_succ_self _⟩
      · obtain ⟨_, _, names₁, _, _, names₂, hleft, hright, rfl, rfl, rfl⟩ := Expr.lower_binary_eq_ok hop hlower
        obtain ⟨hslots₁, hle₁, _⟩ := h.lower_expr left hscalar.1 (hpart _ (.head _)) hslots hleft
        obtain ⟨hslots₂, hle₂, _⟩ := h.lower_expr right hscalar.2 (hpart _ (.tail _ (.head _))) hslots₁ hright
        exact ⟨hslots₂, Nat.le_succ_of_le (Nat.le_trans hle₁ hle₂), Nat.lt_succ_self _⟩
  | .int _ _, _, _, _, _, _, _, hslots, hlower => by
      rw [Expr.lower] at hlower
      cases run_pure_eq_ok.mp hlower
      exact ⟨hslots, Nat.le_refl _, trivial⟩
  | .bool _ _, _, _, _, _, _, _, hslots, hlower => by
      rw [Expr.lower] at hlower
      cases run_pure_eq_ok.mp hlower
      exact ⟨hslots, Nat.le_refl _, trivial⟩
  | .var node name, _, _, _, _, hscalar, hids, hslots, hlower => by
      obtain ⟨_, ptr, names₁, hptr, rfl, rfl, rfl⟩ := Expr.lower_var_eq_ok hlower
      obtain ⟨_, _, _, _, _, _, rfl⟩ :=
        h.variablePtr_eq_ok (hids (.head _)) (of_decide_eq_true hscalar) hslots hptr
      exact ⟨hslots, Nat.le_succ _, Nat.lt_succ_self _⟩
  | .not node operand, _, _, _, _, hscalar, hids, hslots, hlower => by
      obtain ⟨_, _, names₁, hoperand, rfl, rfl, rfl⟩ := Expr.lower_not_eq_ok hlower
      rw [Expr.isScalar] at hscalar
      have hids' : nodeIds operand.visits ⊆ ids :=
        List.Subset.trans (nodeIds_subset (Expr.visits_subset_of_child (d := .not node operand) _ (.head _))) hids
      obtain ⟨hslots₁, hle₁, _⟩ := h.lower_expr operand hscalar hids' hslots hoperand
      exact ⟨hslots₁, Nat.le_succ_of_le hle₁, Nat.lt_succ_self _⟩

/-- An expression evaluates to a scalar and changes neither variables nor output. -/
def Expr.EvaluatesTo (p : Program) (F : Frame) (e : Expr) (s : Memory) (x : Scalar) (s' : Memory) : Prop :=
  Exec.Converges (fun n => (Evaluator.withFuel p n).eval F e) s x.datum s' ∧ s'.vars = s.vars ∧ s'.output = s.output

/-- A machine runs to the code `post`, where an operand is a scalar, and changes only registers that were not in
use. -/
def Machine.Computes (C : Code) (M : Machine) (n : Nat) (post : Code) (o : Operand) (x : Scalar) (M' : Machine) :
    Prop :=
  (∃ k, Steps C k M M') ∧ M'.rest = post ∧ Keeps n M M' ∧ o.word? M'.regs x.ty.ir = some x.word

variable {p : Program} {F : Frame} {C post : Code}

theorem Expr.evaluatesTo {e : Expr} {x : Scalar}
    (h : Exec.Converges (fun n => (Evaluator.withFuel p n).evalForm p F e) s x.datum s')
    (hvars : s'.vars = s.vars) (houtput : s'.output = s.output) : ∃ s'', e.EvaluatesTo p F s x s'' :=
  ⟨_, h.eval, hvars, houtput⟩

/-- An operator on numbers and its instruction give the same result. -/
theorem Lower.operation_computes {op : BinOp} (hop : op ≠ .and) {m n : BitVec 32} {lhs rhs : Operand} {t : Nat}
    {rest : Code} (hrest : M.rest = .instr (operation op (.temp t) lhs rhs) :: rest)
    (hm : lhs.word? M.regs .i32 = some (.i32 m)) (hn : rhs.word? M.regs .i32 = some (.i32 n)) (s : Memory) :
    ∃ x : Scalar, x.ty = op.resultTy ∧ (op.compute (.int m) (.int n)).run s = .ok x.datum s ∧
      M.Computes C t rest (.reg (.temp t)) x { M.define (.temp t) x.word with rest := rest } := by
  have hcomputes : ∀ x : Scalar, Machine.Steps C 1 M { M.define (.temp t) x.word with rest := rest } →
      M.Computes C t rest (.reg (.temp t)) x { M.define (.temp t) x.word with rest := rest } := fun x hsteps =>
    ⟨⟨1, hsteps⟩, rfl, Machine.keeps_define (Nat.le_refl t) _ _, Machine.word?_define _ x.fits_word⟩
  cases op with
  | and => exact absurd rfl hop
  | less => exact ⟨.bool (m.slt n), rfl, rfl, hcomputes _ (Machine.steps_compare hrest hm hn rfl)⟩
  | add => exact ⟨.int (m + n), rfl, rfl, hcomputes _ (Machine.steps_arith hrest hm hn rfl)⟩
  | sub => exact ⟨.int (m - n), rfl, rfl, hcomputes _ (Machine.steps_arith hrest hm hn rfl)⟩
  | mul => exact ⟨.int (m * n), rfl, rfl, hcomputes _ (Machine.steps_arith hrest hm hn rfl)⟩

/-- The end of a conjunction's code, behind the code of its second operand. -/
def Code.joined (n : Nat) (right : Operand) (result : Reg) (post : Code) : Code :=
  .instr (.branch ⟨"andcond", n + 2⟩) :: .label ⟨"andcond", n + 2⟩ :: .instr (.branch ⟨"andcond", n + 3⟩) ::
    .label ⟨"andcond", n + 3⟩ ::
    .instr (.phi result .i1 [(.const 0, ⟨"andcond", n⟩), (right, ⟨"andcond", n + 2⟩)]) :: post

theorem Code.conjunction_append (n : Nat) (left : Operand) (rightCode : Code) (right : Operand) (result : Reg)
    (post : Code) : conjunction n left rightCode right result ++ post =
      .instr (.branch ⟨"andcond", n⟩) :: .label ⟨"andcond", n⟩ ::
        .instr (.branchIf left ⟨"andcond", n + 1⟩ ⟨"andcond", n + 3⟩) :: .label ⟨"andcond", n + 1⟩ ::
        (rightCode ++ joined n right result post) := by
  simp only [conjunction, joined, List.append_assoc, List.cons_append, List.nil_append]

section
variable {n t : Nat} {left right : Operand} {rightCode : Code}

/-- A false first operand is the value of a conjunction, and the code of the second one is passed over. -/
theorem Machine.conjunction_of_false (hC : C.labels.Nodup)
    (hrest : M.rest = Code.conjunction n left rightCode right (.temp t) ++ post) (hsuffix : M.rest <:+ C)
    (hleft : left.word? M.regs .i1 = some (.i1 (.ofBool false))) :
    ∃ M', M.Computes C t post (.reg (.temp t)) (.bool false) M' := by
  rw [Code.conjunction_append] at hrest
  rw [hrest] at hsuffix
  have hcheck := Code.suffix_tail hsuffix
  have hright := Code.suffix_tail (Code.suffix_tail hcheck)
  have hjoined : Code.joined n right (.temp t) post <:+ C := Code.suffix_behind (Code.suffix_tail hright)
  have hjoin := Code.suffix_tail (Code.suffix_tail (Code.suffix_tail hjoined))
  have hfirst := steps_branch hrest hC hcheck
  have hsecond := hfirst.trans (steps_branchIf (b := false) rfl hC (by exact hleft) hjoin)
  have hsteps := hsecond.trans (steps_phi rfl (by exact List.find?_cons_of_pos (decide_eq_true rfl)) rfl)
  refine ⟨_, ⟨_, hsteps⟩, rfl, ?_, word?_define _ rfl⟩
  exact (keeps_arrive _ _).trans ((keeps_arrive _ _).trans (keeps_define (Nat.le_refl t) _ _) (Nat.le_refl t))
    (Nat.le_refl t)

/-- After a true first operand the code of the second one is run. -/
theorem Machine.conjunction_of_true (hC : C.labels.Nodup)
    (hrest : M.rest = Code.conjunction n left rightCode right (.temp t) ++ post) (hsuffix : M.rest <:+ C)
    (hleft : left.word? M.regs .i1 = some (.i1 (.ofBool true))) (k : Nat) :
    ∃ M', (∃ j, Steps C j M M') ∧ M'.rest = rightCode ++ Code.joined n right (.temp t) post ∧ M'.rest <:+ C ∧
      Keeps k M M' := by
  rw [Code.conjunction_append] at hrest
  rw [hrest] at hsuffix
  have hcheck := Code.suffix_tail hsuffix
  have hright := Code.suffix_tail (Code.suffix_tail hcheck)
  have hfirst := steps_branch hrest hC hcheck
  have hsteps := hfirst.trans (steps_branchIf (b := true) rfl hC (by exact hleft) hright)
  refine ⟨_, ⟨_, hsteps⟩, rfl, Code.suffix_tail hright, ?_⟩
  exact (keeps_arrive _ _).trans (keeps_arrive _ _) (Nat.le_refl k)

/-- After the code of the second operand its value is the one of the conjunction. -/
theorem Machine.joined_computes (hC : C.labels.Nodup) (hrest : M.rest = Code.joined n right (.temp t) post)
    (hsuffix : M.rest <:+ C) {b : Bool} (hright : right.word? M.regs .i1 = some (.i1 (.ofBool b))) :
    ∃ M', M.Computes C t post (.reg (.temp t)) (.bool b) M' := by
  rw [hrest] at hsuffix
  have hdone := Code.suffix_tail hsuffix
  have hjoin := Code.suffix_tail (Code.suffix_tail hdone)
  have hbranches := (steps_branch hrest hC hdone).trans (steps_branch rfl hC hjoin)
  have hfind : ([(.const 0, ⟨"andcond", n⟩), (right, ⟨"andcond", n + 2⟩)] : List (Operand × Label)).find?
      (fun e => some e.2 = some ⟨"andcond", n + 2⟩) = some (right, ⟨"andcond", n + 2⟩) := by simp
  have hsteps := hbranches.trans (steps_phi rfl (by exact hfind) (by exact hright))
  refine ⟨_, ⟨_, hsteps⟩, rfl, ?_, word?_define _ rfl⟩
  exact (keeps_arrive _ _).trans ((keeps_arrive _ _).trans (keeps_define (Nat.le_refl t) _ _) (Nat.le_refl t))
    (Nat.le_refl t)

end

/-! ### Expressions -/

theorem Machine.Computes.after (h : ∃ k, Machine.Steps C k M M') {m n : Nat} (hkeeps : M.Keeps m M') (hle : m ≤ n)
    {o : Operand} {x : Scalar} {M'' : Machine} (h' : M'.Computes C n post o x M'') : M.Computes C m post o x M'' := by
  obtain ⟨j, hj⟩ := h
  obtain ⟨⟨k, hk⟩, hrest, hkeeps', hword⟩ := h'
  exact ⟨⟨_, hj.trans hk⟩, hrest, hkeeps.trans hkeeps' hle, hword⟩

end

/-- A method that is run both ways: by evaluation in `frame`, and by a machine on the lines `code` of its function.
Numbers that were printed before are `base`. -/
structure Setting where
  Γ : Context
  ids : List NodeId
  stack : List (String × VarBinding)
  slots : List (NodeId × Reg)
  locals : Locals Γ ids stack slots
  code : Code
  labels : code.labels.Nodup
  program : Program
  frame : Frame
  base : List (BitVec 32)

namespace Setting

variable (K : Setting)

/-- An expression that computes with the variables of a method. -/
structure Admits (e : Expr) : Prop where
  scalar : e.isScalar (K.stack.map (·.1)) = true
  ids : nodeIds e.visits ⊆ K.ids

/-- An expression evaluates to a scalar of its type, and its code leaves this scalar in its operand. -/
def Simulates (e : Expr) : Prop :=
  ∀ ⦃names names' : Names⦄ ⦃code post : Code⦄ ⦃value : Value⦄ ⦃assigned : List String⦄ ⦃ty : Ty⦄ ⦃s : Memory⦄
    ⦃M : Machine⦄, names.slots = K.slots → (e.lower K.Γ).run names = .ok ((code, value), names') →
    e.typeOf K.Γ assigned = .ok ty → Matches K.stack assigned K.base s M → M.rest = code ++ post →
    M.rest <:+ K.code → ∃ x s' M', x.ty = ty ∧ e.EvaluatesTo K.program K.frame s x s' ∧
      M.Computes K.code names.nextTemp post value.operand x M'

variable {K}

theorem Admits.child {e c : Expr} (h : K.Admits e) (hc : c ∈ e.children)
    (hscalar : c.isScalar (K.stack.map (·.1)) = true) : K.Admits c :=
  ⟨hscalar, List.Subset.trans (nodeIds_subset (Expr.visits_subset_of_child c hc)) h.ids⟩

theorem Admits.operands {node : Node} {op : BinOp} {left right : Expr} (h : K.Admits (.binary node op left right)) :
    K.Admits left ∧ K.Admits right := by
  have hscalar := h.scalar
  rw [Expr.isScalar, Bool.and_eq_true] at hscalar
  exact ⟨h.child (.head _) hscalar.1, h.child (.tail _ (.head _)) hscalar.2⟩

theorem Admits.operand {node : Node} {operand : Expr} (h : K.Admits (.not node operand)) : K.Admits operand :=
  h.child (.head _) h.scalar

theorem Admits.lower {e : Expr} (h : K.Admits e) {names names' : Names} {code : Code} {value : Value}
    (hslots : names.slots = K.slots) (hlower : (e.lower K.Γ).run names = .ok ((code, value), names')) :
    names'.slots = K.slots ∧ names.nextTemp ≤ names'.nextTemp ∧ value.operand.Below names'.nextTemp :=
  K.locals.lower_expr e h.scalar h.ids hslots hlower

theorem Admits.isScalar_ty {e : Expr} {assigned : List String} {ty : Ty} (h : K.Admits e)
    (hty : e.typeOf K.Γ assigned = .ok ty) : ty.isScalar = true := by
  cases e with
  | binary node op left right =>
      obtain ⟨_, _, rfl⟩ := Expr.rule_of_typeOf hty
      cases op <;> rfl
  | int node value =>
      obtain rfl := Expr.rule_of_typeOf hty
      rfl
  | bool node value =>
      obtain rfl := Expr.rule_of_typeOf hty
      rfl
  | not node operand =>
      obtain ⟨_, rfl⟩ := Expr.rule_of_typeOf hty
      rfl
  | var node name =>
      obtain ⟨b, hb, rfl⟩ := Expr.rule_of_typeOf hty
      obtain ⟨e, he, rfl⟩ := List.mem_map.mp (of_decide_eq_true h.scalar)
      cases (K.locals.resolve node.id (h.ids (.head _)) e he).symm.trans hb
      exact K.locals.scalar e he
  | _ => nomatch h.scalar

/-- A scalar expression whose value a type may hold is of this type. -/
theorem Admits.typeOf_of_fits {e : Expr} {assigned : List String} {ty : Ty} (h : K.Admits e)
    (hfits : e.Fits K.Γ assigned ty) : e.typeOf K.Γ assigned = .ok ty := by
  obtain ⟨ty', hty, hassignable⟩ := hfits
  have hscalar := h.isScalar_ty hty
  rcases Forest.assignable_cases hassignable with rfl | ⟨_, _, rfl, _⟩
  · exact hty
  · cases hscalar

theorem suffix_of_rest {M M' : Machine} {front post : Code} (hrest : M.rest = front ++ post)
    (hsuffix : M.rest <:+ K.code) (hrest' : M'.rest = post) : M'.rest <:+ K.code := by
  rw [hrest']
  rw [hrest] at hsuffix
  exact Code.suffix_behind hsuffix

theorem simulates_and {node : Node} {left right : Expr} (h : K.Admits (.binary node .and left right))
    (hleft : K.Simulates left) (hright : K.Simulates right) : K.Simulates (.binary node .and left right) := by
  intro names names' code post value assigned ty s M hslots hlower hty hM hrest hsuffix
  obtain ⟨_, leftValue, names₁, _, rightValue, names₂, hlowerLeft, hlowerRight, rfl, rfl, rfl⟩ :=
    Expr.lower_and_eq_ok hlower
  obtain ⟨hleftTy, hrightTy, rfl⟩ := Expr.rule_of_typeOf hty
  obtain ⟨hslots₁, hle₁, _⟩ := h.operands.1.lower hslots hlowerLeft
  have hslots₁' : (names₁.skip 0 4).slots = K.slots := hslots₁
  obtain ⟨_, hle₂, _⟩ := h.operands.2.lower hslots₁' hlowerRight
  rw [List.append_assoc] at hrest
  obtain ⟨x, s₁, M₁, hx, ⟨hconv₁, hvars₁, houtput₁⟩, hsteps₁, hrest₁, hkeeps₁, hword₁⟩ :=
    hleft hslots hlowerLeft (h.operands.1.typeOf_of_fits hleftTy) hM hrest hsuffix
  obtain ⟨b, rfl⟩ := Scalar.eq_bool hx
  have hsuffix₁ := suffix_of_rest hrest hsuffix hrest₁
  cases b with
  | false =>
      obtain ⟨M₂, hcomputes⟩ := Machine.conjunction_of_false K.labels hrest₁ hsuffix₁ hword₁
      obtain ⟨s₂, heval⟩ : ∃ s₂, (Expr.binary node .and left right).EvaluatesTo K.program K.frame s (.bool false) s₂ :=
        Expr.evaluatesTo (hconv₁.bind (Exec.converges_const rfl)) hvars₁ houtput₁
      exact ⟨.bool false, s₂, M₂, rfl, heval, .after hsteps₁ hkeeps₁ (Nat.le_trans hle₁ hle₂) hcomputes⟩
  | true =>
      obtain ⟨M₂, hsteps₂, hrest₂, hsuffix₂, hkeeps₂⟩ :=
        Machine.conjunction_of_true K.labels hrest₁ hsuffix₁ hword₁ names₁.nextTemp
      have hM₂ := (hM.keeps hkeeps₁ hvars₁ houtput₁).keeps hkeeps₂ rfl rfl
      obtain ⟨y, s₃, M₃, hy, ⟨hconv₃, hvars₃, houtput₃⟩, hsteps₃, hrest₃, hkeeps₃, hword₃⟩ :=
        hright hslots₁' hlowerRight (h.operands.2.typeOf_of_fits hrightTy) hM₂ hrest₂ hsuffix₂
      obtain ⟨c, rfl⟩ := Scalar.eq_bool hy
      obtain ⟨M₄, hcomputes⟩ :=
        Machine.joined_computes K.labels hrest₃ (suffix_of_rest hrest₂ hsuffix₂ hrest₃) hword₃
      obtain ⟨s₄, heval⟩ : ∃ s₄, (Expr.binary node .and left right).EvaluatesTo K.program K.frame s (.bool c) s₄ :=
        Expr.evaluatesTo (hconv₁.bind (hconv₃.bind (Exec.converges_const rfl))) (hvars₃.trans hvars₁)
          (houtput₃.trans houtput₁)
      have hlast := Machine.Computes.after hsteps₃ hkeeps₃ hle₂ hcomputes
      have hmiddle := Machine.Computes.after hsteps₂ hkeeps₂ (Nat.le_refl _) hlast
      exact ⟨.bool c, s₄, M₄, rfl, heval, .after hsteps₁ hkeeps₁ hle₁ hmiddle⟩

theorem simulates_binary {node : Node} {op : BinOp} (hop : op ≠ .and) {left right : Expr}
    (h : K.Admits (.binary node op left right)) (hleft : K.Simulates left) (hright : K.Simulates right) :
    K.Simulates (.binary node op left right) := by
  intro names names' code post value assigned ty s M hslots hlower hty hM hrest hsuffix
  obtain ⟨_, leftValue, names₁, _, rightValue, names₂, hlowerLeft, hlowerRight, rfl, rfl, rfl⟩ :=
    Expr.lower_binary_eq_ok hop hlower
  obtain ⟨hleftTy, hrightTy, rfl⟩ := Expr.rule_of_typeOf hty
  have hint : op.operandTy = .int := by
    cases op with
    | and => exact absurd rfl hop
    | _ => rfl
  rw [hint] at hleftTy hrightTy
  obtain ⟨hslots₁, hle₁, hbelow₁⟩ := h.operands.1.lower hslots hlowerLeft
  obtain ⟨_, hle₂, _⟩ := h.operands.2.lower hslots₁ hlowerRight
  rw [List.append_assoc, List.append_assoc] at hrest
  obtain ⟨x, s₁, M₁, hx, ⟨hconv₁, hvars₁, houtput₁⟩, hsteps₁, hrest₁, hkeeps₁, hword₁⟩ :=
    hleft hslots hlowerLeft (h.operands.1.typeOf_of_fits hleftTy) hM hrest hsuffix
  obtain ⟨m, rfl⟩ := Scalar.eq_int hx
  obtain ⟨y, s₂, M₂, hy, ⟨hconv₂, hvars₂, houtput₂⟩, hsteps₂, hrest₂, hkeeps₂, hword₂⟩ :=
    hright hslots₁ hlowerRight (h.operands.2.typeOf_of_fits hrightTy) (hM.keeps hkeeps₁ hvars₁ houtput₁)
      hrest₁ (suffix_of_rest hrest hsuffix hrest₁)
  obtain ⟨n, rfl⟩ := Scalar.eq_int hy
  have hword₁' := (hkeeps₂.word? hbelow₁ .i32).trans hword₁
  obtain ⟨z, hz, hcompute, hcomputes⟩ := Lower.operation_computes hop hrest₂ hword₁' hword₂ s₂
  have hform : Exec.Converges
      (fun k => (Evaluator.withFuel K.program k).evalForm K.program K.frame (.binary node op left right)) s
      z.datum s₂ := by
    refine hconv₁.bind ?_
    change Exec.Converges (fun k => if op = .and ∧ Datum.int m = .bool false then pure (.int m) else
      (Evaluator.withFuel K.program k).eval K.frame right >>= op.compute (.int m)) s₁ z.datum s₂
    simp only [hop, false_and, if_false]
    exact hconv₂.bind (Exec.converges_const hcompute)
  obtain ⟨s₃, heval⟩ := Expr.evaluatesTo hform (hvars₂.trans hvars₁) (houtput₂.trans houtput₁)
  have hlast := Machine.Computes.after hsteps₂ hkeeps₂ hle₂ hcomputes
  exact ⟨z, s₃, _, hz, heval, .after hsteps₁ hkeeps₁ hle₁ hlast⟩

theorem simulates_int (node : Node) (value : Nat) : K.Simulates (.int node value) := by
  intro names names' code post _ assigned ty s M hslots hlower hty hM hrest hsuffix
  obtain rfl := Expr.rule_of_typeOf hty
  rw [Expr.lower] at hlower
  cases run_pure_eq_ok.mp hlower
  obtain ⟨s', heval⟩ : ∃ s', (Expr.int node value).EvaluatesTo K.program K.frame s (.int (BitVec.ofNat 32 value)) s' :=
    Expr.evaluatesTo (Exec.converges_const rfl) rfl rfl
  exact ⟨_, s', M, rfl, heval, ⟨0, .refl M⟩, hrest, .refl M, rfl⟩

theorem simulates_bool (node : Node) (value : Bool) : K.Simulates (.bool node value) := by
  intro names names' code post _ assigned ty s M hslots hlower hty hM hrest hsuffix
  obtain rfl := Expr.rule_of_typeOf hty
  rw [Expr.lower] at hlower
  cases run_pure_eq_ok.mp hlower
  obtain ⟨s', heval⟩ : ∃ s', (Expr.bool node value).EvaluatesTo K.program K.frame s (.bool value) s' :=
    Expr.evaluatesTo (Exec.converges_const rfl) rfl rfl
  refine ⟨_, s', M, rfl, heval, ⟨0, .refl M⟩, hrest, .refl M, ?_⟩
  cases value <;> rfl

theorem simulates_var {node : Node} {name : String} (h : K.Admits (.var node name)) :
    K.Simulates (.var node name) := by
  intro names names' code post value assigned ty s M hslots hlower hty hM hrest hsuffix
  obtain ⟨_, ptr, names₁, hptr, rfl, rfl, rfl⟩ := Expr.lower_var_eq_ok hlower
  obtain ⟨i, b, hi, hb, rfl, rfl, rfl⟩ :=
    K.locals.variablePtr_eq_ok (h.ids (.head _)) (of_decide_eq_true h.scalar) hslots hptr
  rw [Expr.typeOf] at hty
  obtain ⟨b', hb', hassigned, rfl⟩ := Context.readVariable_eq_ok.mp hty
  cases hb.symm.trans hb'
  obtain ⟨x, hfind, hcell, hxty, hnone⟩ := hM.value i _ hi
  cases x with
  | none => exact absurd (hnone rfl) hassigned
  | some x =>
      have hx : x.ty = b.ty := hxty x rfl
      have hread : (Exec.read K.program K.frame name).run s = .ok x.datum s := by
        simp only [Exec.read, EStateM.run_bind, EStateM.run_get, hfind, Option.map_some, EStateM.run_pure]
      obtain ⟨s', heval⟩ : ∃ s', (Expr.var node name).EvaluatesTo K.program K.frame s x s' :=
        Expr.evaluatesTo (Exec.converges_const hread) rfl rfl
      have hfits : x.word.fits b.ty.ir = true := hx ▸ x.fits_word
      have hsteps := Machine.steps_load (C := K.code) hrest (hM.address i _ hi) hcell hfits
      refine ⟨x, s', _, hx, heval, ⟨1, hsteps⟩, rfl, Machine.keeps_define (Nat.le_refl _) _ _, ?_⟩
      exact Machine.word?_define _ x.fits_word

theorem simulates_not {node : Node} {operand : Expr} (h : K.Admits (.not node operand))
    (hoperand : K.Simulates operand) : K.Simulates (.not node operand) := by
  intro names names' code post value assigned ty s M hslots hlower hty hM hrest hsuffix
  obtain ⟨_, operandValue, names₁, hlowerOperand, rfl, rfl, rfl⟩ := Expr.lower_not_eq_ok hlower
  obtain ⟨hoperandTy, rfl⟩ := Expr.rule_of_typeOf hty
  obtain ⟨_, hle₁, _⟩ := h.operand.lower hslots hlowerOperand
  rw [List.append_assoc] at hrest
  obtain ⟨x, s₁, M₁, hx, ⟨hconv₁, hvars₁, houtput₁⟩, hsteps₁, hrest₁, hkeeps₁, hword₁⟩ :=
    hoperand hslots hlowerOperand (h.operand.typeOf_of_fits hoperandTy) hM hrest hsuffix
  obtain ⟨b, rfl⟩ := Scalar.eq_bool hx
  obtain ⟨s₂, heval⟩ : ∃ s₂, (Expr.not node operand).EvaluatesTo K.program K.frame s (.bool (!b)) s₂ :=
    Expr.evaluatesTo (hconv₁.bind (Exec.converges_const rfl)) hvars₁ houtput₁
  have hnot : (Word.i1 1).arith? .sub (.i1 (.ofBool b)) = some (Scalar.bool (!b)).word := by
    cases b <;> rfl
  have hsteps := Machine.steps_arith (C := K.code) hrest₁ rfl hword₁ hnot
  refine ⟨.bool (!b), s₂, _, rfl, heval, .after hsteps₁ hkeeps₁ hle₁ ⟨⟨1, hsteps⟩, rfl, ?_, ?_⟩⟩
  · exact Machine.keeps_define (Nat.le_refl _) _ _
  · exact Machine.word?_define _ (Scalar.bool (!b)).fits_word

theorem simulates : ∀ (e : Expr), K.Admits e → K.Simulates e
  | .binary _ op left right, h => by
      have hleft := simulates left h.operands.1
      have hright := simulates right h.operands.2
      by_cases hop : op = .and
      · subst hop
        exact simulates_and h hleft hright
      · exact simulates_binary hop h hleft hright
  | .int node value, _ => simulates_int node value
  | .bool node value, _ => simulates_bool node value
  | .var _ _, h => simulates_var h
  | .not _ operand, h => simulates_not h (simulates operand h.operand)
  | .element .., h => nomatch h.scalar
  | .length .., h => nomatch h.scalar
  | .call .., h => nomatch h.scalar
  | .this _, h => nomatch h.scalar
  | .newArray .., h => nomatch h.scalar
  | .newObject .., h => nomatch h.scalar

end Setting

end Demitasse
