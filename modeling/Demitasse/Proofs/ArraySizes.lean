import Demitasse.Proofs.ArrayMachine
import Demitasse.Proofs.CodeSites

/-!
Allocations of arrays. A negative length ends the run before anything is allocated. For any other one a cell more than
the length is asked for, and the length is put into the first of these cells, so that there is one for every index
inside the bounds. But the number of cells is computed with 32 bits: for the largest length of all it wraps around, and
the guard, which has looked at the length only, lets it pass.
-/

namespace Demitasse

open Lower Machine

/-- A place in the code of a function where an array is allocated. -/
structure Allocation where
  /-- the names at that place -/
  names : Names
  length : Operand
  /-- the code behind the allocation -/
  behind : Code

namespace Allocation

variable (s : Allocation)

/-- The register that gets the number of cells. -/
def count : Reg :=
  .temp (s.names.nextTemp + 1)

/-- The register that gets the address of the array. -/
def array : Reg :=
  .temp (s.names.nextTemp + 3)

/-- The instruction that asks for the cells. -/
def request : Instr :=
  .allocation (.temp (s.names.nextTemp + 2)) (.reg s.count)

/-- The lines that allocate the array. -/
def lines : Code :=
  arrayCode s.names s.length

/-- The code from the first of these lines on. -/
def code : Code :=
  s.lines ++ s.behind

/-- The place is one of the given code, where the length does not change any more. -/
structure StandsIn (C : Code) : Prop where
  suffix : s.code <:+ C
  length : s.length.Before s.names.nextTemp

/-- A machine has come to the place with a length. -/
structure Ready (M : Machine) (n : BitVec 32) : Prop where
  rest : M.rest = s.code
  length : s.length.word? M.regs .i32 = some (.i32 n)

/-- The lines behind the request. -/
def initialization : Code :=
  .instr (.bitcast s.array .address (.reg (.temp (s.names.nextTemp + 2))) (.ptr .i32)) ::
    .instr (.store .i32 s.length (.reg s.array)) :: s.behind

/-- A length that passes the guard leads to a request for one cell more, computed with 32 bits. This is the right
number except for the largest length, for which the request is for a negative one. If it is right, the array gets its
length and as many zeros. -/
structure Sized (C : Code) : Prop where
  rejects : ∀ M n, s.Ready M n → n.toInt < 0 → ∃ is, Throws C M is ∧ s.request ∉ is
  requests : ∀ M n, s.Ready M n → 0 ≤ n.toInt →
    ∃ is M' c, Executes C M is M' ∧ .throw ∉ is ∧ M'.rest = .instr s.request :: s.initialization ∧
      M'.regs s.count = some (.i32 c) ∧ c.toInt = if n.toInt = 2147483647 then -2147483648 else n.toInt + 1
  allocates : ∀ M n, s.Ready M n → 0 ≤ n.toInt → n.toInt < 2147483647 →
    ∃ is M', Executes C M is M' ∧ M'.rest = s.behind ∧ M'.regs s.array = some (.address M.cells.length) ∧
      M'.cells = M.cells ++ some (.i32 n) :: List.replicate n.toNat (some (.i32 0)) ∧ M'.output = M.output

/-- What is executed before the request. -/
def requestTrace : List Instr :=
  guardTrace "arr_alloc" s.names.nextTemp s.names.nextLabel .lt s.length (.const 0)
    ++ [.arith s.count .add .i32 s.length (.const 1)]

theorem code_eq : s.code = guardCode "arr_alloc" s.names.nextTemp s.names.nextLabel .lt s.length (.const 0)
    ++ .instr (.arith s.count .add .i32 s.length (.const 1)) :: .instr s.request :: s.initialization :=
  rfl

/-- One more than the largest number is the smallest one. -/
theorem toInt_count {n : BitVec 32} (h : 0 ≤ n.toInt) :
    (n + 1).toInt = if n.toInt = 2147483647 then -2147483648 else n.toInt + 1 := by
  split
  case isTrue hmax =>
    obtain rfl : n = .ofInt 32 2147483647 := BitVec.eq_of_toInt_eq (hmax.trans (by decide))
    decide
  case isFalse hmax =>
    have hlt := BitVec.toInt_lt (x := n)
    exact toInt_add_one (by omega)

variable {s} {C : Code} {M : Machine} {n : BitVec 32}

theorem Ready.rejects (hC : C.labels.Nodup) (hs : s.StandsIn C) (h : s.Ready M n) (hneg : n.toInt < 0) :
    Throws C M (guardTrace "arr_alloc" s.names.nextTemp s.names.nextLabel .lt s.length (.const 0) ++ [.throw]) := by
  have hsuffix : M.rest <:+ C := h.rest ▸ hs.suffix
  have hholds : Comparison.lt.holds n 0 = true := BitVec.slt_iff_toInt_lt.mpr hneg
  exact guard_throws hC hsuffix (h.rest.trans s.code_eq) h.length rfl hholds

/-- Behind the guard the number of cells is computed. -/
theorem Ready.requests (hC : C.labels.Nodup) (hs : s.StandsIn C) (h : s.Ready M n) (hnonneg : 0 ≤ n.toInt) :
    ∃ M', Executes C M s.requestTrace M' ∧ M.Keeps s.names.nextTemp M' ∧
      M'.rest = .instr s.request :: s.initialization ∧ M'.regs s.count = some (.i32 (n + 1)) := by
  have hsuffix : M.rest <:+ C := h.rest ▸ hs.suffix
  have hholds : Comparison.lt.holds n 0 = false := by
    rw [Comparison.holds, ← Bool.not_eq_true, BitVec.slt_iff_toInt_lt]
    exact Int.not_lt.mpr hnonneg
  obtain ⟨M₁, hguard, hkeeps₁, hrest₁⟩ := guard_passes hC hsuffix (h.rest.trans s.code_eq) h.length rfl hholds
  have hlength := (hkeeps₁.word?_of_before hs.length _).trans h.length
  obtain ⟨M₂, hadd, hM₂⟩ := executes_arith (C := C) hrest₁ hlength rfl rfl
  exact ⟨M₂, hguard.trans hadd, hkeeps₁.trans hM₂.keeps (by omega), hM₂.rest, hM₂.value⟩

/-- The length comes into the first of the cells that were asked for. -/
theorem set_replicate (cells : List (Option Word)) (k : Nat) (w : Option Word) :
    (cells ++ List.replicate (k + 1) (some (Word.i32 0))).set cells.length w =
      cells ++ w :: List.replicate k (some (.i32 0)) := by
  rw [List.set_append_right _ _ (Nat.le_refl _), Nat.sub_self, List.replicate_succ, List.set_cons_zero]

theorem Ready.allocates (hC : C.labels.Nodup) (hs : s.StandsIn C) (h : s.Ready M n) (hnonneg : 0 ≤ n.toInt)
    (hmax : n.toInt < 2147483647) :
    ∃ is M', Executes C M is M' ∧ M'.rest = s.behind ∧ M'.regs s.array = some (.address M.cells.length) ∧
      M'.cells = M.cells ++ some (.i32 n) :: List.replicate n.toNat (some (.i32 0)) ∧ M'.output = M.output := by
  have hnext := toInt_add_one hmax
  have hcount : (n + 1).toNat = n.toNat + 1 := by
    have hn := toInt_eq_toNat hnonneg
    have hn' := toInt_eq_toNat (n := n + 1) (by omega)
    omega
  obtain ⟨M₁, hexec₁, hkeeps₁, hrest₁, hregs⟩ := h.requests hC hs hnonneg
  have hword : Operand.word? M₁.regs .i32 (.reg s.count) = some (.i32 (n + 1)) := by
    rw [Operand.word?, hregs]
    rfl
  obtain ⟨M₂, hexec₂, hM₂⟩ := executes_allocation (C := C) hrest₁ hword (by omega)
  obtain ⟨M₃, hexec₃, hM₃⟩ := executes_bitcast (C := C) hM₂.rest (hM₂.word? rfl) rfl
  have hkeeps₃ := hM₂.keeps.trans hM₃.keeps (by omega)
  have hcells₃ : M₃.cells = M.cells ++ List.replicate (n.toNat + 1) (some (.i32 0)) := by
    rw [hkeeps₃.cells, hcount, hkeeps₁.cells]
  have hlength : s.length.word? M₃.regs .i32 = some (.i32 n) := by
    rw [hkeeps₃.word?_of_before (hs.length.mono (by omega))]
    exact (hkeeps₁.word?_of_before hs.length _).trans h.length
  have hlt : M.cells.length < M₃.cells.length := by
    rw [hcells₃, List.length_append, List.length_replicate]
    omega
  have hvalue : M₃.regs s.array = some (.address M.cells.length) := by
    rw [← hkeeps₁.cells]
    exact hM₃.value
  have hstore := Executes.of_steps (C := C) hM₃.rest (steps_store hM₃.rest hvalue hlength hlt)
  refine ⟨_, _, ((hexec₁.trans hexec₂).trans hexec₃).trans hstore, rfl, hvalue, ?_, ?_⟩
  · rw [← set_replicate, ← hcells₃]
  · exact hkeeps₃.output.trans hkeeps₁.output

/-- An allocation in code without two labels alike asks for that many cells. -/
theorem StandsIn.sized (hC : C.labels.Nodup) (hs : s.StandsIn C) : s.Sized C where
  rejects M n h hneg := by
    refine ⟨_, h.rejects hC hs hneg, ?_⟩
    simp [request, Instr.allocation, guardTrace, Instr.throw]
  requests M n h hnonneg := by
    obtain ⟨M', hexec, -, hrest, hregs⟩ := h.requests hC hs hnonneg
    refine ⟨_, M', n + 1, hexec, ?_, hrest, hregs, toInt_count hnonneg⟩
    simp [requestTrace, guardTrace, Instr.throw]
  allocates M n h hnonneg hmax := h.allocates hC hs hnonneg hmax

/-- The place is that of an expression for a new array: the code of the size stands in front, and its value is the
length. -/
def Creates (Γ : Context) (C : Code) (size : Expr) (s : Allocation) : Prop :=
  ∃ names sizeCode sizeTy, (size.lower Γ).run names = .ok ((sizeCode, ⟨s.length, sizeTy⟩), s.names) ∧
    (sizeCode ++ s.code) <:+ C

variable {Γ : Context}

theorem Creates.standsIn {size : Expr} (h : s.Creates Γ C size) : s.StandsIn C := by
  obtain ⟨_, _, _, hsize, hsuffix⟩ := h
  exact ⟨Code.suffix_behind hsuffix, Expr.before_of_lower hsize⟩

end Allocation

theorem Expr.CodeIn.exists_creates {Γ : Context} {C : Code} {node : Node} {size : Expr}
    (h : (Expr.newArray node size).CodeIn Γ C) : ∃ s : Allocation, s.Creates Γ C size := by
  obtain ⟨names, code, value, names', hrun, front, back, rfl⟩ := h
  obtain ⟨sizeCode, sizeValue, names₁, hsize, rfl, _, _⟩ := Expr.lower_newArray_eq_ok hrun
  refine ⟨⟨names₁, sizeValue.operand, back⟩, names, sizeCode, sizeValue.ty, hsize, front, ?_⟩
  simp [Allocation.code, Allocation.lines]

/-- Every new array has a place in the function of its routine where cells are asked for: one more than its length
says, unless that is the largest number. -/
theorem allocations_sized {p : Program} {a : Analysis} {M : IrModule} (hM : p.lower a = .ok M) {routine : Routine}
    (hroutine : p.Has routine) :
    ∃ f ∈ M.functions, p.lowerRoutine a routine = .ok f ∧
      (∀ d ∈ p.exprsOf routine, ∀ node size, (Expr.newArray node size).Inside d →
        (∃ s : Allocation, s.Creates ⟨a, routine.className?⟩ f.code size ∧ s.Sized f.code) ∨
          (Expr.newArray node size).Dropped ⟨a, routine.className?⟩ d) ∧
      ((nodeIds p.visits).Nodup → Analysis.ofProgram p = .ok a → p.check a = .ok () →
        ∀ d ∈ p.exprsOf routine, ∀ e, ¬ Expr.Dropped ⟨a, routine.className?⟩ e d) := by
  obtain ⟨f, hf, hlower⟩ := Program.exists_lowerRoutine hM hroutine
  have hlabels := Program.labels_nodup_of_lowerRoutine hlower
  refine ⟨f, hf, hlower, fun d hd node size he => ?_,
    fun hids ha hcheck d hd e => Program.not_dropped hids ha hcheck hroutine hd e⟩
  refine (Expr.CodeIn.inside he (Program.codeIn_of_exprsOf hlower d hd)).imp_left fun hcode => ?_
  obtain ⟨s, hs⟩ := hcode.exists_creates
  exact ⟨s, hs, hs.standsIn.sized hlabels⟩

/-- The main method asks for an array of the largest length there is, a method of a class for one of any length. -/
def depot : Program where
  main := ⟨⟨4, .origin⟩, "Main", "args",
    .print ⟨3, .origin⟩ (.length ⟨2, .origin⟩ (.newArray ⟨1, .origin⟩ (.int ⟨0, .origin⟩ 2147483647)))⟩
  classes := [⟨⟨9, .origin⟩, "Depot", none, [], [fill]⟩]
  span := .origin
where
  /-- the method -/
  fill : MethodDecl :=
    ⟨⟨8, .origin⟩, .intArray, "fill", [⟨⟨5, .origin⟩, .int, "size"⟩], [], [],
      .newArray ⟨7, .origin⟩ (.var ⟨6, .origin⟩ "size")⟩

/-- The allocation in the main method, where it comes first. -/
def depot.allocation : Allocation where
  names := .fresh
  length := .const 2147483647
  behind := [.instr (.load (.temp 4) .i32 (.reg (.temp 3))),
    .instr (.call none (.returns .void) (.global printInt.sig.name) [(.i32, .reg (.temp 4))]),
    .instr (.ret .i32 (.const 0))]

/-- A machine that has come to an allocation with some length. -/
theorem Allocation.exists_ready {s : Allocation} {r : Reg} (hlength : s.length = .reg r) (n : BitVec 32) :
    ∃ M, s.Ready M n ∧ M.cells = [] := by
  refine ⟨⟨s.code, none, none, fun _ => some (.i32 n), [], []⟩, ⟨rfl, ?_⟩, rfl⟩
  rw [hlength]
  rfl

theorem allocations_sized_depot : ∃ a M f, Analysis.ofProgram depot = .ok a ∧ depot.check a = .ok () ∧
    depot.lower a = .ok M ∧ f ∈ M.functions ∧
    ∃ s : Allocation, s.Creates ⟨a, some "Depot"⟩ f.code (.var ⟨6, .origin⟩ "size") ∧
      (∃ K is, s.Ready K (-1) ∧ Throws f.code K is ∧ s.request ∉ is) ∧
      ∃ K is K', s.Ready K 2 ∧ Executes f.code K is K' ∧ K'.regs s.array = some (.address 0) ∧
        K'.cells = [some (.i32 2), some (.i32 0), some (.i32 0)] := by
  have hids : (nodeIds depot.visits).Nodup := by decide
  obtain ⟨a, M, ha, hcheck, hM⟩ := Program.exists_lower_of_checks hids (by decide +kernel)
  have hroutine : depot.Has (.method depot.classes[0] depot.fill) := ⟨List.mem_cons_self, List.mem_cons_self⟩
  have hresult : depot.fill.result ∈ depot.exprsOf (.method depot.classes[0] depot.fill) := List.mem_cons_self
  obtain ⟨f, hf, -, hcreates, hdropped⟩ := allocations_sized hM hroutine
  obtain ⟨s, hs, hsized⟩ := (hcreates _ hresult _ _ .self).resolve_right (hdropped hids ha hcheck _ hresult _)
  refine ⟨a, M, f, ha, hcheck, hM, hf, s, hs, ?_⟩
  obtain ⟨_, _, _, hsize, -⟩ := hs
  obtain ⟨_, _, _, _, _, hsize, _⟩ := Expr.lower_var_eq_ok hsize
  obtain ⟨K, hK, -⟩ := Allocation.exists_ready (congrArg Value.operand hsize) (-1)
  obtain ⟨L, hL, hcells⟩ := Allocation.exists_ready (congrArg Value.operand hsize) 2
  obtain ⟨is, hthrows, hrequest⟩ := hsized.rejects K (-1) hK (by decide)
  obtain ⟨js, L', hexec, -, harray, hcells', -⟩ := hsized.allocates L 2 hL (by decide) (by decide)
  rw [hcells] at harray hcells'
  exact ⟨⟨K, is, hK, hthrows, hrequest⟩, L, js, L', hL, hexec, harray, hcells'⟩

/-- Not for all lengths that pass the guard one cell more is asked for. -/
theorem largest_allocation_wraps : ∃ a M f, Analysis.ofProgram depot = .ok a ∧ depot.check a = .ok () ∧
    depot.lower a = .ok M ∧ f ∈ M.functions ∧ depot.main.lower a = .ok f ∧
    ∃ (s : Allocation) (is : List Instr) (K : Machine) (c : BitVec 32),
      s.Creates ⟨a, none⟩ f.code (.int ⟨0, .origin⟩ 2147483647) ∧ s.Ready (f.enter []) 2147483647 ∧
      Executes f.code (f.enter []) is K ∧ .throw ∉ is ∧ K.rest = .instr s.request :: s.initialization ∧
      K.regs s.count = some (.i32 c) ∧ c.toInt = -2147483648 ∧ c.toInt ≠ (2147483647 : BitVec 32).toInt + 1 := by
  obtain ⟨a, M, ha, hcheck, hM⟩ := Program.exists_lower_of_checks (p := depot) (by decide) (by decide +kernel)
  have hroutine : depot.Has .main := trivial
  obtain ⟨f, hf, hlower⟩ := Program.exists_lowerRoutine hM hroutine
  have hlabels := Program.labels_nodup_of_lowerRoutine hlower
  refine ⟨a, M, f, ha, hcheck, hM, hf, hlower, ?_⟩
  obtain ⟨code, names, hbody, rfl⟩ := MainClass.lower_eq_ok hlower
  obtain ⟨_, _, hprint, rfl⟩ := Stmt.lower_print_eq_ok hbody
  obtain ⟨_, _, _, hlength, rfl, rfl, rfl⟩ := Expr.lower_length_eq_ok hprint
  obtain ⟨sizeCode, sizeValue, names₁, hsize, rfl, rfl, rfl⟩ := Expr.lower_newArray_eq_ok hlength
  have hliteral := hsize
  rw [Expr.lower] at hliteral
  cases run_pure_eq_ok.mp hliteral
  have hcreates : depot.allocation.Creates ⟨a, none⟩ depot.allocation.code (.int ⟨0, .origin⟩ 2147483647) :=
    ⟨.fresh, [], .int, hsize, List.suffix_refl _⟩
  -- nothing stands in front of the allocation, so the machine is ready for it from the start
  have hready : depot.allocation.Ready
      (IrFunction.enter ⟨⟨"@main", .i32, []⟩, depot.allocation.code⟩ []) 2147483647 := ⟨rfl, rfl⟩
  obtain ⟨K, hexec, -, hrest, hregs⟩ := hready.requests hlabels hcreates.standsIn (by decide)
  refine ⟨depot.allocation, _, K, _, hcreates, hready, hexec, ?_, hrest, hregs, by decide, by decide⟩
  simp [Allocation.requestTrace, guardTrace, Instr.throw]

end Demitasse
