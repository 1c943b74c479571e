import Demitasse.Ir.Module
import Demitasse.Proofs.Dominance

/-! A machine for functions of the intermediate language that compute with numbers and truth values. It runs the
lines of one function from its entry. Variables live in stack cells, a branch goes on behind the label that it
names, a choice looks at the block that control came from, and printed numbers are collected. An instruction
whose operands do not have the types it names, and any instruction for objects and arrays, stops the
machine without a result. -/

namespace Demitasse

/-- What registers and stack cells hold. -/
inductive Word where
  | i1 (b : BitVec 1)
  | i32 (n : BitVec 32)
  /-- the place of a stack cell -/
  | address (cell : Nat)
deriving DecidableEq

namespace Word

/-- Whether a word is one of a type. -/
def fits : Word → IrTy → Bool
  | .i1 _, .i1 | .i32 _, .i32 | .address _, .ptr _ => true
  | _, _ => false

end Word

/-- What an arithmetic instruction computes, at whatever width. -/
def ArithOp.compute {w : Nat} : ArithOp → BitVec w → BitVec w → BitVec w
  | .add, m, n => m + n
  | .sub, m, n => m - n
  | .mul, m, n => m * n

/-- Whether a comparison of signed numbers holds. -/
def Comparison.holds {w : Nat} : Comparison → BitVec w → BitVec w → Bool
  | .eq, m, n => m = n
  | .lt, m, n => m.slt n
  | .le, m, n => m.sle n
  | .ge, m, n => n.sle m

namespace Word

/-- The result of an arithmetic instruction. -/
def arith? (op : ArithOp) : Word → Word → Option Word
  | .i1 m, .i1 n => some (.i1 (op.compute m n))
  | .i32 m, .i32 n => some (.i32 (op.compute m n))
  | _, _ => none

/-- The result of a comparison. -/
def compare? (cmp : Comparison) : Word → Word → Option Word
  | .i1 m, .i1 n => some (.i1 (.ofBool (cmp.holds m n)))
  | .i32 m, .i32 n => some (.i1 (.ofBool (cmp.holds m n)))
  | _, _ => none

end Word

/-- The word that an operand of a type stands for. -/
def Operand.word? (regs : Reg → Option Word) (ty : IrTy) : Operand → Option Word
  | .reg r => (regs r).filter (·.fits ty)
  | .const n =>
    match ty with
    | .i1 => some (.i1 (.ofNat 1 n))
    | .i32 => some (.i32 (.ofNat 32 n))
    | _ => none
  | .global _ => none

/-- The code behind a label. -/
def Code.after? (l : Label) : Code → Option Code
  | [] => none
  | line :: c => if line = .label l then some c else after? l c

/-- A machine that runs a function. -/
structure Machine where
  /-- the lines that come next -/
  rest : Code
  /-- the block that these lines continue -/
  block : Option Label
  /-- the block that control came from -/
  previous : Option Label
  regs : Reg → Option Word
  /-- stack cells, which are empty at first -/
  cells : List (Option Word)
  /-- the numbers that were printed, in order -/
  output : List (BitVec 32)

/-- What a step leads to. -/
inductive Progress where
  | next (M : Machine)
  | done (result : Word)

namespace Machine

variable (C : Code)

/-- Puts a word into a register. -/
def define (M : Machine) (r : Reg) (w : Word) : Machine :=
  { M with regs := fun s => if s = r then some w else M.regs s }

/-- Goes on behind a label. -/
def goto (M : Machine) (l : Label) : Option Progress :=
  (C.after? l).map fun rest => .next { M with rest := rest, block := some l, previous := M.block }

/-- The stack cell that an operand is the address of. -/
def cell? (M : Machine) (ty : IrTy) (ptr : Operand) : Option Nat :=
  match ptr.word? M.regs (.ptr ty) with
  | some (.address k) => some k
  | _ => none

/-- Prints a number. -/
def print (M : Machine) (arg : Operand) : Option Progress :=
  match arg.word? M.regs .i32 with
  | some (.i32 n) => some (.next { M with output := M.output ++ [n] })
  | _ => none

/-- Does what an instruction says. -/
def perform (M : Machine) : Instr → Option Progress
  | .arith result op ty lhs rhs => do
    let m ← lhs.word? M.regs ty
    let n ← rhs.word? M.regs ty
    return .next (M.define result (← m.arith? op n))
  | .compare result cmp ty lhs rhs => do
    let m ← lhs.word? M.regs ty
    let n ← rhs.word? M.regs ty
    return .next (M.define result (← m.compare? cmp n))
  | .alloca result _ =>
    return .next { M.define result (.address M.cells.length) with cells := M.cells ++ [none] }
  | .load result ty ptr => do
    let k ← M.cell? ty ptr
    let w ← (M.cells[k]?.join).filter (·.fits ty)
    return .next (M.define result w)
  | .store ty value ptr => do
    let w ← value.word? M.regs ty
    let k ← M.cell? ty ptr
    if k < M.cells.length then return .next { M with cells := M.cells.set k (some w) } else none
  | .phi result ty incoming => do
    let (value, _) ← incoming.find? fun e => some e.2 = M.previous
    return .next (M.define result (← value.word? M.regs ty))
  | .call none (.returns .void) (.global callee) [(.i32, arg)] =>
    if callee = printInt.sig.name then M.print arg else none
  | .branch target => M.goto C target
  | .branchIf cond ifTrue ifFalse =>
    match cond.word? M.regs .i1 with
    | some (.i1 b) => M.goto C (if b = 1 then ifTrue else ifFalse)
    | _ => none
  | .ret ty value => return .done (← value.word? M.regs ty)
  | _ => none

/-- Runs the next line. Control leaves every block before its end, so no label is ever next. -/
def step (M : Machine) : Option Progress :=
  match M.rest with
  | .instr i :: rest => { M with rest := rest }.perform C i
  | _ => none

/-- The result of a run and the numbers that it prints, if it returns within a number of steps. -/
def run : (steps : Nat) → Machine → Option (Word × List (BitVec 32))
  | 0, _ => none
  | steps + 1, M =>
    match M.step C with
    | some (.next M') => run steps M'
    | some (.done w) => some (w, M.output)
    | none => none

end Machine

/-- The machine at the entry of a function. -/
def IrFunction.enter (f : IrFunction) (args : List Word) : Machine where
  rest := f.code
  block := none
  previous := none
  regs r := (f.params.zip args).lookup r
  cells := []
  output := []

/-- Calling a function with some arguments returns a word and prints some numbers. -/
def IrFunction.Returns (f : IrFunction) (args : List Word) (w : Word) (output : List (BitVec 32)) : Prop :=
  ∃ steps, (f.enter args).run f.code steps = some (w, output)

/-- A machine comes to another one in a number of steps. -/
inductive Machine.Steps (C : Code) : Nat → Machine → Machine → Prop
  | refl (M : Machine) : Steps C 0 M M
  | cons {k : Nat} {M M' M'' : Machine} (hstep : M.step C = some (.next M')) (h : Steps C k M' M'') :
      Steps C (k + 1) M M''

namespace Machine

variable {C : Code} {j k : Nat} {M M' M'' : Machine}

theorem Steps.single (h : M.step C = some (.next M')) : Steps C 1 M M' :=
  .cons h (.refl M')

theorem Steps.trans (h : Steps C j M M') (h' : Steps C k M' M'') : Steps C (j + k) M M'' := by
  induction h with
  | refl M => rwa [Nat.zero_add]
  | cons hstep _ ih =>
      rw [Nat.add_right_comm]
      exact .cons hstep (ih h')

theorem Steps.run (h : Steps C k M M') (n : Nat) : M.run C (k + n) = M'.run C n := by
  induction h with
  | refl M => rw [Nat.zero_add]
  | cons hstep _ ih =>
      rw [Nat.add_right_comm, Machine.run, hstep]
      exact ih

/-- A shorter run of a longer one. -/
theorem Steps.take (h : Steps C k M M') : ∀ {j : Nat}, j ≤ k → ∃ M'', Steps C j M M'' := by
  induction h with
  | refl M =>
      intro j hj
      obtain rfl : j = 0 := Nat.le_zero.mp hj
      exact ⟨M, .refl M⟩
  | cons hstep _ ih =>
      intro j hj
      cases j with
      | zero => exact ⟨_, .refl _⟩
      | succ j =>
          obtain ⟨M'', h⟩ := ih (Nat.le_of_succ_le_succ hj)
          exact ⟨M'', .cons hstep h⟩

/-- The machine never stops. -/
def Endless (C : Code) (M : Machine) : Prop :=
  ∀ k, ∃ M', Steps C k M M'

theorem Endless.of_steps (h : Steps C k M M') (h' : Endless C M') : Endless C M := by
  intro n
  obtain ⟨M'', hn⟩ := h' n
  exact (h.trans hn).take (Nat.le_add_left n k)

theorem Endless.run_eq_none (h : Endless C M) (n : Nat) : M.run C n = none := by
  obtain ⟨M', hn⟩ := h n
  rw [← Nat.add_zero n, hn.run 0]
  rfl

/-- A function that returns has one result. -/
theorem run_unique {m n : Nat} {r r' : Word × List (BitVec 32)} (h : M.run C m = some r)
    (h' : M.run C n = some r') : r = r' := by
  induction m generalizing n M with
  | zero => cases h
  | succ m ih =>
      cases n with
      | zero => cases h'
      | succ n =>
          rw [Machine.run] at h h'
          cases hstep : M.step C with
          | none =>
              rw [hstep] at h
              cases h
          | some progress =>
              rw [hstep] at h h'
              cases progress with
              | next M' => exact ih h h'
              | done w => exact Option.some.inj (h.symm.trans h')

end Machine

theorem Code.suffix_tail {line : Line} {c C : Code} (h : (line :: c) <:+ C) : c <:+ C :=
  (List.suffix_cons line c).trans h

theorem Code.suffix_behind {front c C : Code} (h : (front ++ c) <:+ C) : c <:+ C :=
  (List.suffix_append front c).trans h

/-- A branch to a label that stands in the code once goes on behind it. -/
theorem Code.after?_eq_some {C rest : Code} {l : Label} (hnodup : C.labels.Nodup)
    (h : (.label l :: rest) <:+ C) : C.after? l = some rest := by
  obtain ⟨front, rfl⟩ := h
  induction front with
  | nil => exact if_pos rfl
  | cons line front ih =>
      rw [List.cons_append] at hnodup ⊢
      rw [after?]
      cases line with
      | instr i =>
          rw [if_neg Line.noConfusion]
          exact ih hnodup
      | label l' =>
          rw [labels_label, List.nodup_cons, labels_append, labels_label] at hnodup
          have hne : Line.label l' ≠ .label l := by
            rintro ⟨⟩
            exact hnodup.1 (List.mem_append_right _ (.head _))
          rw [if_neg hne]
          rw [labels_append, labels_label] at ih
          exact ih hnodup.2

/-- An operand is a literal or an intermediate value with a number below `n`. -/
def Operand.Below (n : Nat) : Operand → Prop
  | .reg (.temp t) => t < n
  | .const _ => True
  | .reg (.named _) | .global _ => False

/-- An operand is no intermediate value with a number from `n` on. -/
def Operand.Before (n : Nat) (o : Operand) : Prop :=
  ∀ t, o = .reg (.temp t) → t < n

namespace Operand

theorem Below.before {n : Nat} {o : Operand} (h : o.Below n) : o.Before n := by
  rintro t rfl
  exact h

theorem Before.mono {m n : Nat} {o : Operand} (h : o.Before m) (hle : m ≤ n) : o.Before n :=
  fun t ht => Nat.lt_of_lt_of_le (h t ht) hle

theorem before_const (n k : Nat) : (const k).Before n := by
  intro t ht
  cases ht

theorem before_temp {n t : Nat} (h : t < n) : (reg (.temp t)).Before n := by
  rintro _ ⟨⟩
  exact h

end Operand

/-- A machine has changed nothing but intermediate values with numbers from `n` on. -/
structure Machine.Keeps (n : Nat) (M M' : Machine) : Prop where
  regs : ∀ r, (∀ t, r = .temp t → t < n) → M'.regs r = M.regs r
  cells : M'.cells = M.cells
  output : M'.output = M.output

namespace Machine

variable {n m : Nat} {M M' M'' : Machine}

theorem Keeps.refl (M : Machine) : Keeps n M M :=
  ⟨fun _ _ => rfl, rfl, rfl⟩

theorem Keeps.trans (h : Keeps n M M') (h' : Keeps m M' M'') (hle : n ≤ m) : Keeps n M M'' := by
  refine ⟨fun r hr => ?_, h'.cells.trans h.cells, h'.output.trans h.output⟩
  rw [h'.regs r fun t ht => Nat.lt_of_lt_of_le (hr t ht) hle, h.regs r hr]

theorem keeps_define {t : Nat} (hle : n ≤ t) (w : Word) (rest : Code) :
    Keeps n M { M.define (.temp t) w with rest := rest } := by
  refine ⟨fun r hr => if_neg ?_, rfl, rfl⟩
  rintro rfl
  exact absurd (hr t rfl) (Nat.not_lt.mpr hle)

theorem Keeps.word?_of_before (h : Keeps n M M') {o : Operand} (ho : o.Before n) (ty : IrTy) :
    o.word? M'.regs ty = o.word? M.regs ty := by
  cases o with
  | reg r =>
      rw [Operand.word?, Operand.word?, h.regs]
      rintro t rfl
      exact ho t rfl
  | _ => rfl

theorem Keeps.word? (h : Keeps n M M') {o : Operand} (ho : o.Below n) (ty : IrTy) :
    o.word? M'.regs ty = o.word? M.regs ty :=
  h.word?_of_before ho.before ty

theorem word?_define (r : Reg) {w : Word} {ty : IrTy} (hw : w.fits ty = true) :
    Operand.word? (M.define r w).regs ty (.reg r) = some w := by
  have hregs : (M.define r w).regs r = some w := if_pos rfl
  rw [Operand.word?, hregs, Option.filter_some, if_pos hw]

end Machine

namespace Machine

variable {C rest : Code} {M : Machine} {r : Reg} {ty : IrTy} {lhs rhs : Operand}

theorem step_instr {i : Instr} (h : M.rest = .instr i :: rest) :
    M.step C = ({ M with rest := rest } : Machine).perform C i := by
  rw [step, h]

theorem steps_arith {op : ArithOp} (h : M.rest = .instr (.arith r op ty lhs rhs) :: rest) {m n w : Word}
    (hm : lhs.word? M.regs ty = some m) (hn : rhs.word? M.regs ty = some n) (hw : m.arith? op n = some w) :
    Steps C 1 M { M.define r w with rest := rest } := by
  apply Steps.single
  rw [step_instr h]
  show ((lhs.word? M.regs ty).bind fun m => (rhs.word? M.regs ty).bind fun n => (m.arith? op n).bind _) = _
  rw [hm, hn, Option.bind_some, Option.bind_some, hw]
  rfl

theorem steps_compare {cmp : Comparison} (h : M.rest = .instr (.compare r cmp ty lhs rhs) :: rest) {m n w : Word}
    (hm : lhs.word? M.regs ty = some m) (hn : rhs.word? M.regs ty = some n) (hw : m.compare? cmp n = some w) :
    Steps C 1 M { M.define r w with rest := rest } := by
  apply Steps.single
  rw [step_instr h]
  show ((lhs.word? M.regs ty).bind fun m => (rhs.word? M.regs ty).bind fun n => (m.compare? cmp n).bind _) = _
  rw [hm, hn, Option.bind_some, Option.bind_some, hw]
  rfl

theorem cell?_of_regs {k : Nat} (h : M.regs r = some (.address k)) : M.cell? ty (.reg r) = some k := by
  rw [cell?, Operand.word?, h]
  rfl

theorem steps_load {s : Reg} (h : M.rest = .instr (.load r ty (.reg s)) :: rest) {k : Nat} {w : Word}
    (hk : M.regs s = some (.address k)) (hw : M.cells[k]? = some (some w)) (hfits : w.fits ty = true) :
    Steps C 1 M { M.define r w with rest := rest } := by
  apply Steps.single
  rw [step_instr h]
  have hcell : Machine.cell? { M with rest := rest } ty (.reg s) = some k := cell?_of_regs hk
  show ((Machine.cell? _ ty (.reg s)).bind fun k => (M.cells[k]?.join.filter (·.fits ty)).bind _) = _
  rw [hcell, Option.bind_some, hw, Option.join_some, Option.filter_some, if_pos hfits]
  rfl

theorem steps_store {s : Reg} {value : Operand} (h : M.rest = .instr (.store ty value (.reg s)) :: rest) {k : Nat}
    {w : Word} (hk : M.regs s = some (.address k)) (hw : value.word? M.regs ty = some w)
    (hlt : k < M.cells.length) : Steps C 1 M { M with rest := rest, cells := M.cells.set k (some w) } := by
  apply Steps.single
  rw [step_instr h]
  have hcell : Machine.cell? { M with rest := rest } ty (.reg s) = some k := cell?_of_regs hk
  show ((value.word? M.regs ty).bind fun w => (Machine.cell? _ ty (.reg s)).bind fun k =>
    if k < M.cells.length then _ else none) = _
  rw [hw, hcell, Option.bind_some, Option.bind_some, if_pos hlt]
  rfl

theorem steps_phi {incoming : List (Operand × Label)} (h : M.rest = .instr (.phi r ty incoming) :: rest)
    {value : Operand} {l : Label} (hvalue : (incoming.find? fun e => some e.2 = M.previous) = some (value, l))
    {w : Word} (hw : value.word? M.regs ty = some w) : Steps C 1 M { M.define r w with rest := rest } := by
  apply Steps.single
  rw [step_instr h]
  show ((incoming.find? fun e => some e.2 = M.previous).bind fun e => (e.1.word? M.regs ty).bind _) = _
  rw [hvalue, Option.bind_some, hw]
  rfl

/-- A machine that has gone to a label from where it was. -/
def arrive (M : Machine) (l : Label) (rest : Code) : Machine :=
  { M with rest := rest, block := some l, previous := M.block }

theorem keeps_arrive {n : Nat} (l : Label) (rest : Code) : Keeps n M (M.arrive l rest) :=
  ⟨fun _ _ => rfl, rfl, rfl⟩

theorem steps_branch {l : Label} (h : M.rest = .instr (.branch l) :: rest) (hC : C.labels.Nodup) {tail : Code}
    (htail : (.label l :: tail) <:+ C) : Steps C 1 M (M.arrive l tail) := by
  apply Steps.single
  rw [step_instr h]
  show goto C _ l = _
  rw [goto, Code.after?_eq_some hC htail]
  rfl

theorem steps_branchIf {cond : Operand} {ifTrue ifFalse : Label}
    (h : M.rest = .instr (.branchIf cond ifTrue ifFalse) :: rest) (hC : C.labels.Nodup) {b : Bool}
    (hb : cond.word? M.regs .i1 = some (.i1 (.ofBool b))) {tail : Code}
    (htail : (.label (if b then ifTrue else ifFalse) :: tail) <:+ C) :
    Steps C 1 M (M.arrive (if b then ifTrue else ifFalse) tail) := by
  have hbit : (if BitVec.ofBool b = 1 then ifTrue else ifFalse) = if b then ifTrue else ifFalse := by
    cases b <;> rfl
  apply Steps.single
  rw [step_instr h]
  simp only [perform, hb, hbit, goto, Code.after?_eq_some hC htail]
  rfl

end Machine

end Demitasse
