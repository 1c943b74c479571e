import Demitasse.Proofs.Emission
import Demitasse.Proofs.Machine

/-!
Arrays for the machine. An array is a row of cells of four bytes: its length, and behind it its elements. Beyond what
the machine does with numbers, it computes addresses inside of a row, allocates a row of zeros, and ends the run when
an access out of bounds is reported. Numbers wrap around; comparisons, offsets and counts are those of signed numbers.
The instructions that a run executes are collected, so that it can be said what comes before what and what never comes.
-/

namespace Demitasse

/-- What an instruction leads to. -/
inductive StepOutcome where
  | next (M : Machine)
  | done (result : Word)
  /-- an access out of bounds was reported, which ends the run -/
  | thrown

/-- What an instruction on numbers leads to. -/
def StepOutcome.ofProgress : Progress → StepOutcome
  | .next M => .next M
  | .done w => .done w

/-- The instruction that reports an access out of bounds. -/
def Instr.throw : Instr :=
  .call none (.returns .void) (.global throwOutOfBounds.sig.name) []

/-- The call that allocates cells, as many as an operand says. -/
def Instr.allocation (result : Reg) (count : Operand) : Instr :=
  .call (some result) (.returns .address) (.global calloc.name) [(.i32, .const 4), (.i32, count)]

namespace Machine

/-- The cell that lies so many cells behind another one. -/
def offset? (k : Nat) (d : BitVec 32) : Option Nat :=
  if 0 ≤ k + d.toInt then some (k + d.toInt).toNat else none

/-- Puts a row of so many zeros behind all cells. -/
def allocate (M : Machine) (result : Reg) (count : BitVec 32) : Option StepOutcome :=
  if 0 ≤ count.toInt then
    some (.next { M.define result (.address M.cells.length) with
      cells := M.cells ++ List.replicate count.toNat (some (.i32 0)) })
  else none

/-- Does what an instruction for arrays says. -/
def performOnArrays (M : Machine) : Instr → Option StepOutcome
  | .elementPtr result .i32 ptr [offset] =>
    match ptr.word? M.regs (.ptr .i32), offset.word? M.regs .i32 with
    | some (.address k), some (.i32 d) => (offset? k d).map fun j => .next (M.define result (.address j))
    | _, _ => none
  | .bitcast result source value target => do
    let w ← (value.word? M.regs source).filter (·.fits target)
    return .next (M.define result w)
  | .call none (.returns .void) (.global callee) [] =>
    if callee = throwOutOfBounds.sig.name then some .thrown else none
  | .call (some result) (.returns (.ptr .i8)) (.global callee) [(.i32, .const 4), (.i32, count)] =>
    match count.word? M.regs .i32 with
    | some (.i32 n) => if callee = calloc.name then M.allocate result n else none
    | _ => none
  | _ => none

/-- One more is one more, below the largest number. -/
theorem toInt_add_one {n : BitVec 32} (h : n.toInt < 2147483647) : (n + 1).toInt = n.toInt + 1 := by
  have hlow := BitVec.le_toInt n
  have hone : (1 : BitVec 32).toInt = 1 := by decide
  rw [BitVec.toInt_add, hone]
  apply Int.bmod_eq_of_le <;> omega

theorem toInt_eq_toNat {n : BitVec 32} (h : 0 ≤ n.toInt) : n.toInt = n.toNat := by
  rw [BitVec.toInt_eq_toNat_cond] at h ⊢
  split at h <;> omega

theorem offset?_of_nonneg {d : BitVec 32} (h : 0 ≤ d.toInt) (k : Nat) : offset? k d = some (k + d.toNat) := by
  rw [offset?, toInt_eq_toNat h, if_pos (by omega)]
  exact congrArg some (by omega)

variable (C : Code)

/-- Does what an instruction says, be it one on numbers or one for arrays. -/
def act (M : Machine) (i : Instr) : Option StepOutcome :=
  match M.perform C i with
  | some progress => some (.ofProgress progress)
  | none => M.performOnArrays i

/-- The instructions that are executed in so many steps. One that cannot be executed is the last. -/
def trace : (steps : Nat) → Machine → List Instr
  | 0, _ => []
  | steps + 1, M =>
    match M.rest with
    | .instr i :: rest =>
      i :: match ({ M with rest := rest } : Machine).act C i with
        | some (.next M') => trace steps M'
        | _ => []
    | _ => []

/-- A machine comes to another one by executing some instructions. -/
inductive Executes : Machine → List Instr → Machine → Prop
  | nil (M : Machine) : Executes M [] M
  | cons {M M' M'' : Machine} {i : Instr} {is : List Instr} {rest : Code} (hrest : M.rest = .instr i :: rest)
      (hact : ({ M with rest := rest } : Machine).act C i = some (.next M')) (h : Executes M' is M'') :
      Executes M (i :: is) M''

/-- The instructions are all that a machine ever executes, and the last one reports an access out of bounds. -/
def Throws (M : Machine) (is : List Instr) : Prop :=
  is.getLast? = some .throw ∧ ∀ steps, M.trace C steps = is.take steps

variable {C} {M M' M'' : Machine} {i : Instr} {is js : List Instr} {rest : Code}

theorem Executes.single (hrest : M.rest = .instr i :: rest)
    (hact : ({ M with rest := rest } : Machine).act C i = some (.next M')) : Executes C M [i] M' :=
  .cons hrest hact (.nil M')

theorem Executes.trans (h : Executes C M is M') (h' : Executes C M' js M'') : Executes C M (is ++ js) M'' := by
  induction h with
  | nil M => exact h'
  | cons hrest hact _ ih => exact .cons hrest hact (ih h')

/-- A step of the machine on numbers is an execution. -/
theorem Executes.of_steps (hrest : M.rest = .instr i :: rest) (h : Steps C 1 M M') : Executes C M [i] M' := by
  cases h with
  | cons hstep h =>
      cases h
      rw [step_instr hrest] at hstep
      exact .single hrest (by rw [act, hstep]; rfl)

/-- What is executed first shows in the trace. -/
theorem Executes.trace_eq (h : Executes C M is M') (steps : Nat) :
    M.trace C steps = is.take steps ++ M'.trace C (steps - is.length) := by
  induction h generalizing steps with
  | nil M => rw [List.take_nil, List.nil_append, List.length_nil, Nat.sub_zero]
  | cons hrest hact _ ih =>
      cases steps with
      | zero => rw [Nat.zero_sub, trace, trace, List.take_zero, List.append_nil]
      | succ steps =>
          simp only [trace, hrest, hact]
          rw [ih, List.take_succ_cons, List.length_cons, Nat.add_sub_add_right, List.cons_append]

theorem act_throw (M : Machine) : M.act C .throw = some .thrown := by
  have hperform : M.perform C .throw = none := rfl
  simp only [act, hperform]
  rw [Instr.throw, performOnArrays, if_pos rfl]

/-- Nothing is executed behind the report of an access out of bounds. -/
theorem Executes.throws (h : Executes C M is M') (hrest : M'.rest = .instr .throw :: rest) :
    Throws C M (is ++ [.throw]) := by
  refine ⟨List.getLast?_concat, fun steps => ?_⟩
  have hlast : ∀ n, M'.trace C n = [Instr.throw].take n := by
    intro n
    cases n with
    | zero => rfl
    | succ n =>
        simp only [trace, hrest, act_throw]
        rw [List.take_succ_cons, List.take_nil]
  rw [h.trace_eq, hlast, List.take_append]

theorem Executes.append_throws (h : Executes C M is M') (h' : Throws C M' js) : Throws C M (is ++ js) := by
  refine ⟨?_, fun steps => ?_⟩
  · rw [List.getLast?_append, h'.1]
    rfl
  · rw [h.trace_eq, h'.2, List.take_append]

/-- A machine has put a word into an intermediate value and goes on with other lines. -/
structure Defines (t : Nat) (w : Word) (rest : Code) (M M' : Machine) : Prop where
  keeps : M.Keeps t M'
  value : M'.regs (.temp t) = some w
  rest : M'.rest = rest

section
variable {t : Nat} {w : Word}

theorem defines_define (M : Machine) (t : Nat) (w : Word) (rest : Code) :
    Defines t w rest M { M.define (.temp t) w with rest := rest } :=
  ⟨keeps_define (Nat.le_refl t) w rest, if_pos rfl, rfl⟩

theorem Defines.word? (h : Defines t w rest M M') {ty : IrTy} (hw : w.fits ty = true) :
    Operand.word? M'.regs ty (.reg (.temp t)) = some w := by
  rw [Operand.word?, h.value, Option.filter_some, if_pos hw]

theorem executes_compare {cmp : Comparison} {ty : IrTy} {lhs rhs : Operand}
    (hrest : M.rest = .instr (.compare (.temp t) cmp ty lhs rhs) :: rest) {m n : Word}
    (hm : lhs.word? M.regs ty = some m) (hn : rhs.word? M.regs ty = some n) (hw : m.compare? cmp n = some w) :
    ∃ M', Executes C M [.compare (.temp t) cmp ty lhs rhs] M' ∧ Defines t w rest M M' :=
  ⟨_, .of_steps hrest (steps_compare hrest hm hn hw), defines_define M t w rest⟩

theorem executes_arith {op : ArithOp} {ty : IrTy} {lhs rhs : Operand}
    (hrest : M.rest = .instr (.arith (.temp t) op ty lhs rhs) :: rest) {m n : Word}
    (hm : lhs.word? M.regs ty = some m) (hn : rhs.word? M.regs ty = some n) (hw : m.arith? op n = some w) :
    ∃ M', Executes C M [.arith (.temp t) op ty lhs rhs] M' ∧ Defines t w rest M M' :=
  ⟨_, .of_steps hrest (steps_arith hrest hm hn hw), defines_define M t w rest⟩

theorem executes_load {ty : IrTy} {s : Reg} (hrest : M.rest = .instr (.load (.temp t) ty (.reg s)) :: rest) {k : Nat}
    (hk : M.regs s = some (.address k)) (hw : M.cells[k]? = some (some w)) (hfits : w.fits ty = true) :
    ∃ M', Executes C M [.load (.temp t) ty (.reg s)] M' ∧ Defines t w rest M M' :=
  ⟨_, .of_steps hrest (steps_load hrest hk hw hfits), defines_define M t w rest⟩

theorem executes_elementPtr {ptr offset : Operand}
    (hrest : M.rest = .instr (.elementPtr (.temp t) .i32 ptr [offset]) :: rest) {k j : Nat} {d : BitVec 32}
    (hk : ptr.word? M.regs (.ptr .i32) = some (.address k)) (hd : offset.word? M.regs .i32 = some (.i32 d))
    (hj : offset? k d = some j) :
    ∃ M', Executes C M [.elementPtr (.temp t) .i32 ptr [offset]] M' ∧ Defines t (.address j) rest M M' := by
  refine ⟨_, .single hrest ?_, defines_define M t (.address j) rest⟩
  have hperform : perform C { M with rest := rest } (.elementPtr (.temp t) .i32 ptr [offset]) = none := rfl
  simp only [act, hperform, performOnArrays, hk, hd, hj, Option.map_some]
  rfl

theorem executes_bitcast {source target : IrTy} {value : Operand}
    (hrest : M.rest = .instr (.bitcast (.temp t) source value target) :: rest)
    (hw : value.word? M.regs source = some w) (hfits : w.fits target = true) :
    ∃ M', Executes C M [.bitcast (.temp t) source value target] M' ∧ Defines t w rest M M' := by
  refine ⟨_, .single hrest ?_, defines_define M t w rest⟩
  have hperform : perform C { M with rest := rest } (.bitcast (.temp t) source value target) = none := rfl
  simp only [act, hperform, performOnArrays, hw, Option.filter_some, hfits, if_true, Option.bind_eq_bind,
    Option.bind_some]
  rfl

/-- Behind an allocation the machine is as if it had the cells before. -/
theorem executes_allocation {count : Operand} (hrest : M.rest = .instr (.allocation (.temp t) count) :: rest)
    {n : BitVec 32} (hn : count.word? M.regs .i32 = some (.i32 n)) (hnonneg : 0 ≤ n.toInt) :
    ∃ M', Executes C M [.allocation (.temp t) count] M' ∧
      Defines t (.address M.cells.length) rest
        { M with cells := M.cells ++ List.replicate n.toNat (some (.i32 0)) } M' := by
  refine ⟨_, .single hrest ?_, defines_define _ t _ rest⟩
  have hperform : perform C { M with rest := rest } (.allocation (.temp t) count) = none := rfl
  simp only [act, hperform]
  simp only [Instr.allocation, IrTy.address, performOnArrays, hn, allocate, hnonneg, if_true]
  rfl

end

/-- The code that ends the run if a comparison holds. -/
def guardCode (stem : String) (t l : Nat) (cmp : Comparison) (lhs rhs : Operand) : Code :=
  .instr (.compare (.temp t) cmp .i32 lhs rhs) ::
    Code.guarded stem l (.reg (.temp t)) [Lower.throwCall]

/-- What a guard executes before it is decided. -/
def guardTrace (stem : String) (t l : Nat) (cmp : Comparison) (lhs rhs : Operand) : List Instr :=
  [.compare (.temp t) cmp .i32 lhs rhs, .branchIf (.reg (.temp t)) ⟨stem, l⟩ ⟨stem, l + 1⟩]

section
variable {stem : String} {t l : Nat} {cmp : Comparison} {lhs rhs : Operand} {tail : Code} {m n : BitVec 32}

theorem guardCode_append (tail : Code) : guardCode stem t l cmp lhs rhs ++ tail =
    .instr (.compare (.temp t) cmp .i32 lhs rhs) ::
      .instr (.branchIf (.reg (.temp t)) ⟨stem, l⟩ ⟨stem, l + 1⟩) ::
      .label ⟨stem, l⟩ :: .instr .throw :: .instr (.branch ⟨stem, l + 1⟩) :: .label ⟨stem, l + 1⟩ :: tail :=
  rfl

/-- A guard compares two numbers and goes on at the report or behind it. -/
theorem executes_guard (hC : C.labels.Nodup) (hsuffix : M.rest <:+ C)
    (hrest : M.rest = guardCode stem t l cmp lhs rhs ++ tail) (hm : lhs.word? M.regs .i32 = some (.i32 m))
    (hn : rhs.word? M.regs .i32 = some (.i32 n)) :
    ∃ M', Executes C M (guardTrace stem t l cmp lhs rhs) M' ∧ M.Keeps t M' ∧
      M'.rest = if cmp.holds m n then
        .instr .throw :: .instr (.branch ⟨stem, l + 1⟩) :: .label ⟨stem, l + 1⟩ :: tail else tail := by
  rw [guardCode_append] at hrest
  rw [hrest] at hsuffix
  have hfail := Code.suffix_tail (Code.suffix_tail hsuffix)
  have hpass := Code.suffix_tail (Code.suffix_tail (Code.suffix_tail hfail))
  obtain ⟨M₁, hcompare, hM₁⟩ := executes_compare (C := C) hrest hm hn rfl
  have hcond : Operand.word? M₁.regs .i1 (.reg (.temp t)) = some (.i1 (.ofBool (cmp.holds m n))) := hM₁.word? rfl
  cases hholds : cmp.holds m n with
  | true =>
      rw [hholds] at hcond
      have hbranch := steps_branchIf hM₁.rest hC hcond hfail
      exact ⟨_, hcompare.trans (.of_steps hM₁.rest hbranch), hM₁.keeps.trans (keeps_arrive _ _) (Nat.le_refl t), rfl⟩
  | false =>
      rw [hholds] at hcond
      have hbranch := steps_branchIf hM₁.rest hC hcond hpass
      exact ⟨_, hcompare.trans (.of_steps hM₁.rest hbranch), hM₁.keeps.trans (keeps_arrive _ _) (Nat.le_refl t), rfl⟩

theorem guard_passes (hC : C.labels.Nodup) (hsuffix : M.rest <:+ C)
    (hrest : M.rest = guardCode stem t l cmp lhs rhs ++ tail) (hm : lhs.word? M.regs .i32 = some (.i32 m))
    (hn : rhs.word? M.regs .i32 = some (.i32 n)) (hholds : cmp.holds m n = false) :
    ∃ M', Executes C M (guardTrace stem t l cmp lhs rhs) M' ∧ M.Keeps t M' ∧ M'.rest = tail := by
  obtain ⟨M', hexec, hkeeps, hrest'⟩ := executes_guard hC hsuffix hrest hm hn
  rw [hholds, if_neg Bool.false_ne_true] at hrest'
  exact ⟨M', hexec, hkeeps, hrest'⟩

theorem guard_throws (hC : C.labels.Nodup) (hsuffix : M.rest <:+ C)
    (hrest : M.rest = guardCode stem t l cmp lhs rhs ++ tail) (hm : lhs.word? M.regs .i32 = some (.i32 m))
    (hn : rhs.word? M.regs .i32 = some (.i32 n)) (hholds : cmp.holds m n = true) :
    Throws C M (guardTrace stem t l cmp lhs rhs ++ [.throw]) := by
  obtain ⟨M', hexec, -, hrest'⟩ := executes_guard hC hsuffix hrest hm hn
  rw [hholds, if_pos rfl] at hrest'
  exact hexec.throws hrest'

end

end Machine

end Demitasse
