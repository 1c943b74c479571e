import Demitasse.Proofs.ArrayMachine
import Demitasse.Proofs.CodeSites
import Demitasse.Proofs.ReadBack

/-!
Accesses to elements of arrays. Before an element is read or written, its index is compared with zero and with the
length of the array, which is kept in front of the elements. An index inside the bounds leads to the cell of its
element, which is never the cell of the length; for any other index the run ends before an element's address is
computed. So it is at every access of a function, for all indices and lengths that numbers of 32 bits can be.
-/

namespace Demitasse

open Lower Machine

/-- What is done with an element of an array. -/
inductive ElementUse where
  | read (result : Reg)
  | write (value : Operand)

/-- The instruction that does it, given the register with the element's address. -/
def ElementUse.instr (element : Reg) : ElementUse → Instr
  | .read result => .load result .i32 (.reg element)
  | .write value => .store .i32 value (.reg element)

/-- A place in the code of a function where an element of an array is read or written. -/
structure ElementAccess where
  /-- the names at that place -/
  names : Names
  array : Operand
  index : Operand
  access : ElementUse
  /-- the code behind the access -/
  behind : Code

namespace ElementAccess

variable (s : ElementAccess)

/-- The register that gets the element's position behind the length. -/
def position : Reg :=
  .temp (s.names.nextTemp + 4)

/-- The register that gets the element's address. -/
def element : Reg :=
  .temp (s.names.nextTemp + 5)

/-- The instruction that reads or writes the element. -/
def instr : Instr :=
  s.access.instr s.element

/-- The lines that compute the element's address. -/
def lines : Code :=
  elementCode s.names s.array s.index

/-- The code from the first of these lines on. -/
def code : Code :=
  s.lines ++ .instr s.instr :: s.behind

/-- The place is one of the given code, where the operands do not change any more. -/
structure StandsIn (C : Code) : Prop where
  suffix : s.code <:+ C
  array : s.array.Before s.names.nextTemp
  index : s.index.Before s.names.nextTemp

/-- A machine has come to the place with an index and with an array whose length is kept in a cell. -/
structure Ready (M : Machine) (cell : Nat) (i n : BitVec 32) : Prop where
  rest : M.rest = s.code
  array : s.array.word? M.regs (.ptr .i32) = some (.address cell)
  index : s.index.word? M.regs .i32 = some (.i32 i)
  length : M.cells[cell]? = some (some (.i32 n))
  nonneg : 0 ≤ n.toInt

/-- Inside the bounds, control comes to the access with the address of the right cell. Otherwise the run ends, and
neither the access nor the computation of an address other than that of the length is executed. -/
structure Guarded (C : Code) : Prop where
  admits : ∀ M cell i n, s.Ready M cell i n → 0 ≤ i.toInt → i.toInt < n.toInt →
    ∃ is M', Executes C M is M' ∧ .throw ∉ is ∧ M'.rest = .instr s.instr :: s.behind ∧
      M'.regs s.position = some (.i32 (i + 1)) ∧ (i + 1).toInt = i.toInt + 1 ∧
      M'.regs s.element = some (.address (cell + (i + 1).toNat)) ∧ 1 ≤ (i + 1).toNat ∧ (i + 1).toNat ≤ n.toNat ∧
      M'.cells = M.cells ∧ M'.output = M.output
  rejects : ∀ M cell i n, s.Ready M cell i n → ¬ (0 ≤ i.toInt ∧ i.toInt < n.toInt) →
    ∃ is, Throws C M is ∧ s.instr ∉ is ∧
      ∀ result elem ptr offsets, .elementPtr result elem ptr offsets ∈ is → offsets = [.const 0]

/-- The lines behind both guards. -/
def computation : Code :=
  .instr (.arith s.position .add .i32 s.index (.const 1)) ::
    .instr (.elementPtr s.element .i32 s.array [.reg s.position]) :: .instr s.instr :: s.behind

/-- The second guard and what follows. -/
def lengthGuard : Code :=
  guardCode "oob" (s.names.nextTemp + 3) (s.names.nextLabel + 2) .le (.reg (.temp (s.names.nextTemp + 2))) s.index
    ++ s.computation

/-- What is executed from the first guard to the second one. -/
def lowTrace : List Instr :=
  guardTrace "oob" s.names.nextTemp s.names.nextLabel .lt s.index (.const 0)
    ++ [.elementPtr (.temp (s.names.nextTemp + 1)) .i32 s.array [.const 0]]
    ++ [.load (.temp (s.names.nextTemp + 2)) .i32 (.reg (.temp (s.names.nextTemp + 1)))]

/-- What is executed in the second guard. -/
def highTrace : List Instr :=
  guardTrace "oob" (s.names.nextTemp + 3) (s.names.nextLabel + 2) .le (.reg (.temp (s.names.nextTemp + 2))) s.index

theorem code_eq : s.code = guardCode "oob" s.names.nextTemp s.names.nextLabel .lt s.index (.const 0)
    ++ .instr (.elementPtr (.temp (s.names.nextTemp + 1)) .i32 s.array [.const 0]) ::
      .instr (.load (.temp (s.names.nextTemp + 2)) .i32 (.reg (.temp (s.names.nextTemp + 1)))) :: s.lengthGuard :=
  rfl

variable {s} {C : Code} {M : Machine} {cell : Nat} {i n : BitVec 32}

/-- Behind the first guard the length is read. -/
theorem Ready.reads_length (hC : C.labels.Nodup) (hs : s.StandsIn C) (h : s.Ready M cell i n) (hlow : 0 ≤ i.toInt) :
    ∃ M', Executes C M s.lowTrace M' ∧ M.Keeps s.names.nextTemp M' ∧ M'.rest = s.lengthGuard ∧
      Operand.word? M'.regs .i32 (.reg (.temp (s.names.nextTemp + 2))) = some (.i32 n) := by
  have hsuffix : M.rest <:+ C := h.rest ▸ hs.suffix
  have hholds : Comparison.lt.holds i 0 = false := by
    rw [Comparison.holds, ← Bool.not_eq_true, BitVec.slt_iff_toInt_lt]
    exact Int.not_lt.mpr hlow
  obtain ⟨M₁, hguard, hkeeps₁, hrest₁⟩ := guard_passes hC hsuffix (h.rest.trans s.code_eq) h.index rfl hholds
  have harray := (hkeeps₁.word?_of_before hs.array _).trans h.array
  obtain ⟨M₂, hptr, hM₂⟩ := executes_elementPtr (C := C) hrest₁ harray rfl (offset?_of_nonneg (by decide) cell)
  have hlength : M₂.cells[cell]? = some (some (.i32 n)) := by
    rw [hM₂.keeps.cells, hkeeps₁.cells]
    exact h.length
  obtain ⟨M₃, hload, hM₃⟩ := executes_load (C := C) hM₂.rest hM₂.value hlength rfl
  refine ⟨M₃, (hguard.trans hptr).trans hload, ?_, hM₃.rest, hM₃.word? rfl⟩
  exact (hkeeps₁.trans hM₂.keeps (by omega)).trans hM₃.keeps (by omega)

theorem suffix_lengthGuard (hs : s.StandsIn C) : s.lengthGuard <:+ C := by
  have hsuffix := hs.suffix
  rw [code_eq] at hsuffix
  exact Code.suffix_tail (Code.suffix_tail (Code.suffix_behind hsuffix))

/-- Behind the second guard the address of the element is computed. -/
theorem Ready.admits (hC : C.labels.Nodup) (hs : s.StandsIn C) (h : s.Ready M cell i n) (hlow : 0 ≤ i.toInt)
    (hhigh : i.toInt < n.toInt) :
    ∃ M', Executes C M (s.lowTrace ++ s.highTrace ++ [.arith s.position .add .i32 s.index (.const 1)]
        ++ [.elementPtr s.element .i32 s.array [.reg s.position]]) M' ∧
      M.Keeps s.names.nextTemp M' ∧ M'.rest = .instr s.instr :: s.behind ∧
      M'.regs s.position = some (.i32 (i + 1)) ∧ M'.regs s.element = some (.address (cell + (i + 1).toNat)) := by
  have hholds : Comparison.le.holds n i = false := by
    rw [Comparison.holds, ← Bool.not_eq_true, BitVec.sle_iff_toInt_le]
    exact Int.not_le.mpr hhigh
  have hnext : 0 ≤ (i + 1).toInt := by
    have hmax := BitVec.toInt_lt (x := n)
    rw [toInt_add_one (by omega)]
    omega
  obtain ⟨M₁, hlowTrace, hkeeps₁, hrest₁, hlength⟩ := h.reads_length hC hs hlow
  have hsuffix : M₁.rest <:+ C := hrest₁ ▸ suffix_lengthGuard hs
  have hindex₁ := (hkeeps₁.word?_of_before hs.index _).trans h.index
  obtain ⟨M₂, hguard, hkeeps₂, hrest₂⟩ := guard_passes hC hsuffix hrest₁ hlength hindex₁ hholds
  have hkeeps₂ := hkeeps₁.trans hkeeps₂ (by omega)
  have hindex₂ := (hkeeps₂.word?_of_before hs.index _).trans h.index
  obtain ⟨M₃, hadd, hM₃⟩ := executes_arith (C := C) hrest₂ hindex₂ rfl rfl
  have hkeeps₃ := hkeeps₂.trans hM₃.keeps (by omega)
  have harray := (hkeeps₃.word?_of_before hs.array _).trans h.array
  obtain ⟨M₄, hptr, hM₄⟩ := executes_elementPtr (C := C) hM₃.rest harray (hM₃.word? rfl)
    (offset?_of_nonneg hnext cell)
  refine ⟨M₄, ((hlowTrace.trans hguard).trans hadd).trans hptr, hkeeps₃.trans hM₄.keeps (by omega), hM₄.rest, ?_,
    hM₄.value⟩
  rw [hM₄.keeps.regs]
  · exact hM₃.value
  · rintro t ⟨⟩
    omega

/-- What may be executed before the run ends. -/
def checks (s : ElementAccess) : List Instr :=
  s.lowTrace ++ (s.highTrace ++ [.throw])

theorem instr_notMem_checks (s : ElementAccess) : s.instr ∉ s.checks := by
  rw [checks, lowTrace, highTrace, guardTrace, guardTrace, instr, element]
  cases s.access with
  | read result => simp [ElementUse.instr, Instr.throw]
  | write value => simp [ElementUse.instr, Instr.throw]

theorem offsets_of_mem_checks {result : Reg} {elem : IrTy} {ptr : Operand} {offsets : List Operand}
    (h : .elementPtr result elem ptr offsets ∈ s.checks) : offsets = [.const 0] := by
  have heq : Instr.elementPtr result elem ptr offsets =
      .elementPtr (.temp (s.names.nextTemp + 1)) .i32 s.array [.const 0] := by
    simpa [checks, lowTrace, highTrace, guardTrace, Instr.throw] using h
  exact (Instr.elementPtr.inj heq).2.2.2

/-- A negative index ends the run before the length is read, one that is too large behind it. -/
theorem Ready.rejects (hC : C.labels.Nodup) (hs : s.StandsIn C) (h : s.Ready M cell i n)
    (hbounds : ¬ (0 ≤ i.toInt ∧ i.toInt < n.toInt)) : ∃ is, Throws C M is ∧ is ⊆ s.checks := by
  by_cases hlow : 0 ≤ i.toInt
  · have hholds : Comparison.le.holds n i = true :=
      BitVec.sle_iff_toInt_le.mpr (Int.not_lt.mp fun hhigh => hbounds ⟨hlow, hhigh⟩)
    obtain ⟨M₁, hlowTrace, hkeeps₁, hrest₁, hlength⟩ := h.reads_length hC hs hlow
    have hsuffix : M₁.rest <:+ C := hrest₁ ▸ suffix_lengthGuard hs
    have hindex₁ := (hkeeps₁.word?_of_before hs.index _).trans h.index
    exact ⟨_, hlowTrace.append_throws (guard_throws hC hsuffix hrest₁ hlength hindex₁ hholds), List.Subset.refl _⟩
  · have hsuffix : M.rest <:+ C := h.rest ▸ hs.suffix
    have hholds : Comparison.lt.holds i 0 = true := BitVec.slt_iff_toInt_lt.mpr (Int.not_le.mp hlow)
    refine ⟨_, guard_throws hC hsuffix (h.rest.trans s.code_eq) h.index rfl hholds, ?_⟩
    rw [checks, lowTrace, List.append_assoc, List.append_assoc]
    exact List.append_subset.mpr ⟨List.subset_append_left _ _, by simp⟩

/-- An access in code without two labels alike is guarded. -/
theorem StandsIn.guarded (hC : C.labels.Nodup) (hs : s.StandsIn C) : s.Guarded C where
  admits M cell i n h hlow hhigh := by
    have hmax := BitVec.toInt_lt (x := n)
    have hnext : (i + 1).toInt = i.toInt + 1 := toInt_add_one (by omega)
    have hposition : (i + 1).toInt = (i + 1).toNat := toInt_eq_toNat (by omega)
    have hlength : n.toInt = n.toNat := toInt_eq_toNat h.nonneg
    obtain ⟨M', hexec, hkeeps, hrest, hpos, helement⟩ := h.admits hC hs hlow hhigh
    refine ⟨_, M', hexec, ?_, hrest, hpos, hnext, helement, by omega, by omega, hkeeps.cells, hkeeps.output⟩
    simp [lowTrace, highTrace, guardTrace, Instr.throw]
  rejects M cell i n h hbounds := by
    obtain ⟨is, hthrows, hsub⟩ := h.rejects hC hs hbounds
    refine ⟨is, hthrows, fun hmem => s.instr_notMem_checks (hsub hmem), fun _ _ _ _ hmem => ?_⟩
    exact offsets_of_mem_checks (hsub hmem)

/-- The place is that of an expression for an element: the code of the array and that of the index stand in front, and
their values are the operands. -/
def Reads (Γ : Context) (C : Code) (array index : Expr) (s : ElementAccess) : Prop :=
  ∃ names names₁ arrayCode indexCode arrayTy indexTy result,
    (array.lower Γ).run names = .ok ((arrayCode, ⟨s.array, arrayTy⟩), names₁) ∧
    (index.lower Γ).run names₁ = .ok ((indexCode, ⟨s.index, indexTy⟩), s.names) ∧
    s.access = .read result ∧ (arrayCode ++ indexCode ++ s.code) <:+ C

/-- The place is that of an assignment to an element: the array is loaded in front, and the code of the index and
that of the value follow. -/
def Writes (Γ : Context) (C : Code) (node : Node) (target : String) (index value : Expr) (s : ElementAccess) : Prop :=
  ∃ names names₁ names₂ ptrCode ptr indexCode indexTy valueCode operand,
    (variablePtr Γ target node.id).run names = .ok ((ptrCode, ptr), names₁) ∧
    (index.lower Γ).run (names₁.skip 1 0) = .ok ((indexCode, ⟨s.index, indexTy⟩), names₂) ∧
    (value.lower Γ).run names₂ = .ok ((valueCode, operand), s.names) ∧
    s.array = .reg (.temp names₁.nextTemp) ∧ s.access = .write operand.operand ∧
    (ptrCode ++ [.instr (.load (.temp names₁.nextTemp) (.ptr .i32) ptr.operand)] ++ indexCode ++ valueCode
      ++ s.code) <:+ C

variable {Γ : Context}

theorem Reads.standsIn {array index : Expr} (h : s.Reads Γ C array index) : s.StandsIn C := by
  obtain ⟨_, _, _, _, _, _, _, harray, hindex, _, hsuffix⟩ := h
  refine ⟨Code.suffix_behind hsuffix, ?_, Expr.before_of_lower hindex⟩
  exact (Expr.before_of_lower harray).mono (index.nextTemp_le hindex)

theorem Writes.standsIn {node : Node} {target : String} {index value : Expr}
    (h : s.Writes Γ C node target index value) : s.StandsIn C := by
  obtain ⟨_, names₁, _, _, _, _, _, _, _, _, hindex, hvalue, harray, _, hsuffix⟩ := h
  have hle := index.nextTemp_le hindex
  have hle' := value.nextTemp_le hvalue
  refine ⟨Code.suffix_behind hsuffix, ?_, (Expr.before_of_lower hindex).mono hle'⟩
  rw [harray]
  exact Operand.before_temp (Nat.lt_of_lt_of_le (Nat.lt_succ_self _) (Nat.le_trans hle hle'))

end ElementAccess

section
variable {Γ : Context} {C : Code}

theorem Expr.CodeIn.exists_reads {node : Node} {array index : Expr}
    (h : (Expr.element node array index).CodeIn Γ C) : ∃ s : ElementAccess, s.Reads Γ C array index := by
  obtain ⟨names, code, value, names', hrun, front, back, rfl⟩ := h
  obtain ⟨arrayCode, arrayValue, names₁, indexCode, indexValue, names₂, harray, hindex, rfl, _, _⟩ :=
    Expr.lower_element_eq_ok hrun
  refine ⟨⟨names₂, arrayValue.operand, indexValue.operand, .read (.temp (names₂.nextTemp + 6)), back⟩, names, names₁,
    arrayCode, indexCode, arrayValue.ty, indexValue.ty, _, harray, hindex, rfl, front, ?_⟩
  simp [ElementAccess.code, ElementAccess.lines, ElementAccess.instr, ElementUse.instr, ElementAccess.element]

theorem Stmt.CodeIn.exists_writes {node : Node} {target : String} {index value : Expr}
    (h : (Stmt.assignElement node target index value).CodeIn Γ C) :
    ∃ s : ElementAccess, s.Writes Γ C node target index value := by
  obtain ⟨names, code, names', hrun, front, back, rfl⟩ := h
  obtain ⟨ptrCode, ptr, names₁, indexCode, indexValue, names₂, valueCode, operand, names₃, hptr, hindex, hvalue, rfl,
    _⟩ := Stmt.lower_assignElement_eq_ok hrun
  refine ⟨⟨names₃, .reg (.temp names₁.nextTemp), indexValue.operand, .write operand.operand, back⟩, names, names₁,
    names₂, ptrCode, ptr, indexCode, indexValue.ty, valueCode, operand, hptr, hindex, hvalue, rfl, rfl, front, ?_⟩
  simp [ElementAccess.code, ElementAccess.lines, ElementAccess.instr, ElementUse.instr, ElementAccess.element]

end

/-- Every access to an element has a place in the function of its routine and is guarded there. Only in arguments that
no parameter stands for it may have none, and these are not found in a checked program. If the program was read from a
source text, whoever reads the text of the module finds this function, with the guards in it. -/
theorem element_accesses_guarded {p : Program} {a : Analysis} {M : IrModule} (hM : p.lower a = .ok M)
    {routine : Routine} (hroutine : p.Has routine) :
    ∃ f ∈ M.functions, p.lowerRoutine a routine = .ok f ∧
      (∀ d ∈ p.exprsOf routine, ∀ node array index, (Expr.element node array index).Inside d →
        (∃ s : ElementAccess, s.Reads ⟨a, routine.className?⟩ f.code array index ∧ s.Guarded f.code) ∨
          (Expr.element node array index).Dropped ⟨a, routine.className?⟩ d) ∧
      (∀ t ∈ p.stmtsOf routine, ∀ node target index value, (Stmt.assignElement node target index value).Inside t →
        ∃ s : ElementAccess, s.Writes ⟨a, routine.className?⟩ f.code node target index value ∧ s.Guarded f.code) ∧
      ((nodeIds p.visits).Nodup → Analysis.ofProgram p = .ok a → p.check a = .ok () →
        ∀ d ∈ p.exprsOf routine, ∀ e, ¬ Expr.Dropped ⟨a, routine.className?⟩ e d) ∧
      ∀ source, parse source = .ok p → Analysis.ofProgram p = .ok a →
        f.WrittenIn M.render ∧ (p.check a = .ok () → compile source = .ok M.render) := by
  obtain ⟨f, hf, hlower⟩ := Program.exists_lowerRoutine hM hroutine
  have hlabels := Program.labels_nodup_of_lowerRoutine hlower
  refine ⟨f, hf, hlower, fun d hd node array index he => ?_, fun t ht node target index value hs => ?_,
    fun hids ha hcheck d hd e => Program.not_dropped hids ha hcheck hroutine hd e, fun source hparse ha =>
      ⟨Program.writtenIn_of_lower hparse ha hM hf, fun hcheck => compile_of_lower hparse ha hcheck hM⟩⟩
  · refine (Expr.CodeIn.inside he (Program.codeIn_of_exprsOf hlower d hd)).imp_left fun hcode => ?_
    obtain ⟨s, hs⟩ := hcode.exists_reads
    exact ⟨s, hs, hs.standsIn.guarded hlabels⟩
  · obtain ⟨s, hwrites⟩ := (Stmt.CodeIn.inside hs (Program.codeIn_of_stmtsOf hlower t ht)).exists_writes
    exact ⟨s, hwrites, hwrites.standsIn.guarded hlabels⟩

/-- A method that writes one element of an array of three numbers and returns another one. -/
def shelf : Program where
  main := ⟨⟨1, .origin⟩, "Main", "args", .block ⟨0, .origin⟩ []⟩
  classes := [⟨⟨13, .origin⟩, "Shelf", none, [], [pick]⟩]
  span := .origin
where
  /-- the method -/
  pick : MethodDecl :=
    ⟨⟨12, .origin⟩, .int, "pick", [], [⟨⟨2, .origin⟩, .intArray, "books"⟩],
      [.assign ⟨5, .origin⟩ "books" (.newArray ⟨4, .origin⟩ (.int ⟨3, .origin⟩ 3)),
        .assignElement ⟨8, .origin⟩ "books" (.int ⟨6, .origin⟩ 0) (.int ⟨7, .origin⟩ 7)],
      .element ⟨11, .origin⟩ (.var ⟨9, .origin⟩ "books") (.int ⟨10, .origin⟩ 1)⟩

/-- A machine that has come to an access with a literal for its index. -/
theorem ElementAccess.exists_ready {s : ElementAccess} {r : Reg} {k : Nat} (harray : s.array = .reg r)
    (hindex : s.index = .const k) {n : BitVec 32} (hn : 0 ≤ n.toInt) : ∃ M, s.Ready M 0 (.ofNat 32 k) n := by
  refine ⟨⟨s.code, none, none, fun _ => some (.address 0), [some (.i32 n)], []⟩, rfl, ?_, ?_, rfl, hn⟩
  · rw [harray]
    rfl
  · rw [hindex]
    rfl

/-- The same method in a source text. -/
def shelfSource : String :=
  "class Main\x7bpublic static void main(String[]args)\x7b\x7b\x7d\x7d\x7d class Shelf\x7bint pick()\x7bint[]books;" ++
    "books=new int[3];books[0]=7;return books[1];\x7d\x7d"

theorem element_accesses_guarded_shelf : (∃ a M f, Analysis.ofProgram shelf = .ok a ∧ shelf.check a = .ok () ∧
    shelf.lower a = .ok M ∧ f ∈ M.functions ∧
    (∃ s : ElementAccess, s.Reads ⟨a, some "Shelf"⟩ f.code (.var ⟨9, .origin⟩ "books") (.int ⟨10, .origin⟩ 1) ∧
      (∃ K is K', s.Ready K 0 1 3 ∧ Executes f.code K is K' ∧ K'.regs s.element = some (.address 2)) ∧
      ∃ K is, s.Ready K 0 1 1 ∧ Throws f.code K is ∧ s.instr ∉ is) ∧
    ∃ s : ElementAccess, s.Writes ⟨a, some "Shelf"⟩ f.code ⟨8, .origin⟩ "books" (.int ⟨6, .origin⟩ 0)
      (.int ⟨7, .origin⟩ 7) ∧ s.Guarded f.code) ∧
    ∃ p a c m f ir, parse shelfSource = .ok p ∧ Analysis.ofProgram p = .ok a ∧ p.Has (.method c m) ∧ m.name = "pick" ∧
      p.lowerRoutine a (.method c m) = .ok f ∧ compile shelfSource = .ok ir ∧ f.WrittenIn ir := by
  constructor
  · have hids : (nodeIds shelf.visits).Nodup := by decide
    obtain ⟨a, M, ha, hcheck, hM⟩ := Program.exists_lower_of_checks hids (by decide +kernel)
    have hroutine : shelf.Has (.method shelf.classes[0] shelf.pick) := ⟨List.mem_cons_self, List.mem_cons_self⟩
    obtain ⟨f, hf, -, hreads, hwrites, hdropped, -⟩ := element_accesses_guarded hM hroutine
    have hresult : shelf.pick.result ∈ shelf.exprsOf (.method shelf.classes[0] shelf.pick) := List.mem_cons_self
    obtain ⟨s, hs, hguarded⟩ := (hreads _ hresult _ _ _ .self).resolve_right (hdropped hids ha hcheck _ hresult _)
    refine ⟨a, M, f, ha, hcheck, hM, hf, ⟨s, hs, ?_⟩,
      hwrites _ (List.mem_cons_of_mem _ List.mem_cons_self) _ _ _ _ .self⟩
    obtain ⟨_, _, _, _, _, _, _, harray, hindex, -, -⟩ := hs
    obtain ⟨_, _, _, _, _, harray, _⟩ := Expr.lower_var_eq_ok harray
    have harray := congrArg Value.operand harray
    rw [Expr.lower] at hindex
    have hindex : s.index = .const 1 := congrArg (fun r => r.1.2.operand) (run_pure_eq_ok.mp hindex)
    obtain ⟨K, hK⟩ := ElementAccess.exists_ready harray hindex (n := 3) (by decide)
    obtain ⟨L, hL⟩ := ElementAccess.exists_ready harray hindex (n := 1) (by decide)
    obtain ⟨is, K', hexec, -, -, -, -, helement, -⟩ := hguarded.admits K 0 1 3 hK (by decide) (by decide)
    obtain ⟨js, hthrows, hinstr, -⟩ := hguarded.rejects L 0 1 1 hL (by decide)
    exact ⟨⟨K, is, K', hK, hexec, helement⟩, L, js, hL, hthrows, hinstr⟩
  · have hvalid : (isValid shelfSource).toOption = some true := by decide +kernel
    have hpick : ((parse shelfSource).toOption.any fun p => p.classes.any fun c => c.methods.any fun m =>
        m.name = "pick") = true := by decide +kernel
    obtain ⟨p, a, hparse, ha, hcheck⟩ := accepted_of_isValid hvalid
    rw [hparse] at hpick
    obtain ⟨c, hc, hpick⟩ := List.any_eq_true.mp hpick
    obtain ⟨m, hm, hpick⟩ := List.any_eq_true.mp hpick
    obtain ⟨M, hM⟩ := Program.exists_lower (nodeIds_nodup_of_parse hparse) ha hcheck
    have hroutine : p.Has (.method c m) := ⟨hc, hm⟩
    obtain ⟨f, -, hlower, -, -, -, htext⟩ := element_accesses_guarded hM hroutine
    obtain ⟨hwritten, hcompile⟩ := htext shelfSource hparse ha
    exact ⟨p, a, c, m, f, M.render, hparse, ha, hroutine, of_decide_eq_true hpick, hlower, hcompile hcheck, hwritten⟩

end Demitasse
