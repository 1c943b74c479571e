import Mathlib.Tactic.Simps.Basic
import Demitasse.Proofs.Emission
import Demitasse.Proofs.Numbering
import Demitasse.Proofs.Operands

/-! The code of an expression or a statement is a region: control enters it at its first line and leaves it
behind its last one, its labels have consecutive numbers, and so do the registers that it defines. A region
is made of instructions without a branch, of regions in a row and of four forms with labels. Which registers
have a value is known at its start and at its end; what is defined on one of two ways is not known behind
them. -/

namespace Demitasse

/-- A place in the code of a function: the next numbers, and the temporaries that have a value there. -/
structure Point where
  nextTemp : Nat
  nextLabel : Nat
  known : List Reg

namespace Point

/-- The place behind the definition of the next temporary. -/
@[simps] def define (s : Point) : Point :=
  ⟨s.nextTemp + 1, s.nextLabel, .temp s.nextTemp :: s.known⟩

/-- The place with so many labels handed out in addition. -/
@[simps] def label (s : Point) (n : Nat) : Point :=
  ⟨s.nextTemp, s.nextLabel + n, s.known⟩

/-- The place with the numbers of `t`, where no more is known than at `s`. -/
@[simps] def rejoin (s t : Point) : Point :=
  ⟨t.nextTemp, t.nextLabel, s.known⟩

/-- An operand has a value: if it is a register, then one that always has a value or one that is known. -/
def Sees (S : Reg → Prop) (s : Point) (o : Operand) : Prop :=
  ∀ r, o = .reg r → S r ∨ r ∈ s.known

variable {S : Reg → Prop} {s t : Point}

@[simp] theorem sees_const (n : Nat) : s.Sees S (.const n) :=
  nofun

@[simp] theorem sees_global (name : String) : s.Sees S (.global name) :=
  nofun

@[simp] theorem sees_reg {r : Reg} : s.Sees S (.reg r) ↔ S r ∨ r ∈ s.known := by
  constructor
  · intro h
    exact h r rfl
  · rintro h _ ⟨⟩
    exact h

theorem Sees.mono {o : Operand} (h : s.Sees S o) (hsub : s.known ⊆ t.known) : t.Sees S o := by
  intro r hr
  exact (h r hr).imp_right fun hknown => hsub hknown

theorem Sees.define {o : Operand} (h : s.Sees S o) : s.define.Sees S o :=
  h.mono (List.subset_cons_self _ _)

end Point

/-- An instruction that neither leaves its block nor depends on where control came from. -/
def Instr.isPlain (i : Instr) : Bool :=
  !i.isTerminator && !i.isPhi

/-- Code that control enters at its start and leaves at its end. The registers of `S` have a value
everywhere. -/
inductive Region (S : Reg → Prop) : Point → Code → Point → Prop
  | nil (s : Point) : Region S s [] s
  | append {s t u : Point} {c d : Code} : Region S s c t → Region S t d u → Region S s (c ++ d) u
  | effect {s : Point} {i : Instr} : i.isPlain = true → i.result? = none →
      (∀ u ∈ i.operands, s.Sees S u.1) → Region S s [.instr i] s
  | value {s : Point} {i : Instr} : i.isPlain = true → i.result? = some (.temp s.nextTemp) →
      (∀ u ∈ i.operands, s.Sees S u.1) → Region S s [.instr i] s.define
  | guarded {s t : Point} (stem : String) {cond : Operand} {body : Code} : s.Sees S cond →
      Region S (s.label 2) body t → Region S s (.guarded stem s.nextLabel cond body) (s.rejoin t)
  | choice {s t u : Point} {cond : Operand} {thenCode elseCode : Code} : s.Sees S cond →
      Region S (s.label 3) thenCode t → Region S (s.rejoin t) elseCode u →
      Region S s (.choice s.nextLabel cond thenCode elseCode) (s.rejoin u)
  | cycle {s t u : Point} {condCode : Code} {cond : Operand} {body : Code} :
      Region S (s.label 3) condCode t → t.Sees S cond → Region S t body u →
      Region S s (.cycle s.nextLabel condCode cond body) (t.rejoin u)
  | conjunction {s t : Point} {left right : Operand} {rightCode : Code} : s.Sees S left →
      Region S (s.label 4) rightCode t → t.Sees S right →
      Region S s (.conjunction s.nextLabel left rightCode right (.temp t.nextTemp)) (s.rejoin t).define

namespace Region

variable {S : Reg → Prop} {s t : Point} {c : Code}

/-- What is known stays known. -/
theorem known_subset (h : Region S s c t) : s.known ⊆ t.known := by
  induction h with
  | nil s => exact List.Subset.refl _
  | append _ _ ihc ihd => exact List.Subset.trans ihc ihd
  | effect _ _ _ => exact List.Subset.refl _
  | value _ _ _ => exact List.subset_cons_self _ _
  | guarded _ _ _ _ => exact List.Subset.refl _
  | choice _ _ _ _ _ => exact List.Subset.refl _
  | cycle _ _ _ ihcond _ => exact ihcond
  | conjunction _ _ _ _ => exact List.subset_cons_self _ _

theorem nextLabel_le (h : Region S s c t) : s.nextLabel ≤ t.nextLabel := by
  induction h with
  | nil s => exact Nat.le_refl _
  | append _ _ ihc ihd => exact Nat.le_trans ihc ihd
  | effect _ _ _ => exact Nat.le_refl _
  | value _ _ _ => exact Nat.le_refl _
  | guarded _ _ _ ih =>
      simp only [Point.label_nextLabel, Point.rejoin_nextLabel] at ih ⊢
      omega
  | choice _ _ _ ihthen ihelse =>
      simp only [Point.label_nextLabel, Point.rejoin_nextLabel] at ihthen ihelse ⊢
      omega
  | cycle _ _ _ ihcond ihbody =>
      simp only [Point.label_nextLabel, Point.rejoin_nextLabel] at ihcond ihbody ⊢
      omega
  | conjunction _ _ _ ih =>
      simp only [Point.label_nextLabel, Point.rejoin_nextLabel, Point.define_nextLabel] at ih ⊢
      omega

theorem nextTemp_le (h : Region S s c t) : s.nextTemp ≤ t.nextTemp := by
  induction h with
  | nil s => exact Nat.le_refl _
  | append _ _ ihc ihd => exact Nat.le_trans ihc ihd
  | effect _ _ _ => exact Nat.le_refl _
  | value _ _ _ => exact Nat.le_succ _
  | guarded _ _ _ ih => exact ih
  | choice _ _ _ ihthen ihelse => exact Nat.le_trans ihthen ihelse
  | cycle _ _ _ ihcond ihbody => exact Nat.le_trans ihcond ihbody
  | conjunction _ _ _ ih => exact Nat.le_succ_of_le ih

/-- Instructions one by one: the first one defines a register. -/
theorem cons_value {i : Instr} (hplain : i.isPlain = true) (hresult : i.result? = some (.temp s.nextTemp))
    (hsees : ∀ u ∈ i.operands, s.Sees S u.1) (h : Region S s.define c t) : Region S s (.instr i :: c) t :=
  append (value hplain hresult hsees) h

end Region

/-- The place at which names are used next. -/
def Names.point (names : Names) (known : List Reg) : Point :=
  ⟨names.nextTemp, names.nextLabel, known⟩

theorem Names.point_slot (names : Names) (name : String) (decl : NodeId) (known : List Reg) :
    (names.slot name decl).2.point known = names.point known := by
  rw [Names.slot]
  cases names.slots.lookup decl <;> rfl

/-- Lowering finds the addresses of variables among the registers of `S`, as long as `I` holds of the
addresses that it has met. -/
structure Context.Addresses (Γ : Context) (ids : List NodeId) (S : Reg → Prop)
    (I : List (NodeId × Reg) → Prop) : Prop where
  this : ∀ C, Γ.className = some C → S .this
  slot : ∀ id ∈ ids, ∀ name b, Γ.analysis.scopes.resolve? id name = some b → b.storage ≠ .field →
    ∀ names : Names, I names.slots → S (names.slot name b.decl).1 ∧ I (names.slot name b.decl).2.slots

/-- The code between two states of the names is a region, at the end of which some operands have values. -/
def Emits (S : Reg → Prop) (I : List (NodeId × Reg) → Prop) (start : Names) (known : List Reg) (code : Code)
    (stop : Names) (uses : List Operand) : Prop :=
  ∃ known', Region S (start.point known) code (stop.point known') ∧
    (∀ o ∈ uses, (stop.point known').Sees S o) ∧ I stop.slots

section
variable {S : Reg → Prop} {I : List (NodeId × Reg) → Prop} {Γ : Context} {ids : List NodeId}
  {names names' : Names} {code : Code}

open Lower Point

/-- A guard is a comparison and a region that may be passed over. -/
theorem region_guard {s : Point} (stem : String) (cmp : Comparison) {lhs rhs : Operand}
    (hlhs : s.Sees S lhs) (hrhs : s.Sees S rhs) :
    Region S s (.instr (.compare (.temp s.nextTemp) cmp .i32 lhs rhs) ::
      Code.guarded stem s.nextLabel (.reg (.temp s.nextTemp)) [throwCall]) (s.define.label 2) := by
  refine .cons_value rfl rfl (by simp [Instr.operands, hlhs, hrhs]) ?_
  refine .guarded stem (by simp) (t := s.define.label 2) ?_
  exact .effect rfl rfl (by simp [Instr.operands])

theorem region_element {s : Point} {array index : Operand} (harray : s.Sees S array)
    (hindex : s.Sees S index) :
    Region S s (elementCode ⟨s.nextTemp, s.nextLabel, []⟩ array index)
      ((s.define.label 2).define.define.define.label 2).define.define := by
  have harray₁ : (s.define.label 2).Sees S array := harray.define
  have hindex₂ : (s.define.label 2).define.define.Sees S index := hindex.define.define.define
  have harray₃ : ((s.define.label 2).define.define.define.label 2).Sees S array :=
    harray₁.define.define.define
  have hindex₃ : ((s.define.label 2).define.define.define.label 2).Sees S index := hindex₂.define
  refine .append (.append (.append (region_guard "oob" .lt hindex (by simp)) ?_)
    (region_guard "oob" .le (by simp) hindex₂)) ?_
  · refine .cons_value rfl rfl (by simp [Instr.operands, harray₁]) ?_
    exact .value rfl rfl (by simp [Instr.operands])
  · refine .cons_value rfl rfl (by simp [Instr.operands, hindex₃]) ?_
    exact .value rfl rfl (by simp [Instr.operands, harray₃.define])

theorem region_array {s : Point} {length : Operand} (hlength : s.Sees S length) :
    Region S s (arrayCode ⟨s.nextTemp, s.nextLabel, []⟩ length) (s.define.label 2).define.define.define := by
  have hlength₁ : (s.define.label 2).Sees S length := hlength.define
  refine .append (region_guard "arr_alloc" .lt hlength (by simp)) ?_
  refine .cons_value rfl rfl (by simp [Instr.operands, hlength₁]) ?_
  refine .cons_value rfl rfl (by simp [Instr.operands]) ?_
  refine .cons_value rfl rfl (by simp [Instr.operands]) ?_
  exact .effect rfl rfl (by simp [Instr.operands, hlength₁.define.define.define])

theorem region_method {s : Point} {owner : Operand} (howner : s.Sees S owner) (slot : Nat) (sig : FnSig) :
    Region S s (methodCode ⟨s.nextTemp, s.nextLabel, []⟩ owner slot sig)
      s.define.define.define.define.define := by
  refine .cons_value rfl rfl (by simp [Instr.operands, howner]) ?_
  refine .cons_value rfl rfl (by simp [Instr.operands]) ?_
  refine .cons_value rfl rfl (by simp [Instr.operands]) ?_
  refine .cons_value rfl rfl (by simp [Instr.operands]) ?_
  exact .value rfl rfl (by simp [Instr.operands])

theorem region_object (s : Point) (className : String) (layout : Layout) :
    Region S s (objectCode ⟨s.nextTemp, s.nextLabel, []⟩ className layout) s.define.define.define := by
  refine .cons_value rfl rfl (by simp [Instr.operands]) ?_
  refine .cons_value rfl rfl (by simp [Instr.operands]) ?_
  refine .cons_value rfl rfl (by simp [Instr.operands]) ?_
  exact .effect rfl rfl (by simp [Instr.operands])

theorem region_field (s : Point) (hthis : S .this) (offset : Nat) (ty : Ty) :
    Region S s (fieldCode ⟨s.nextTemp, s.nextLabel, []⟩ offset ty) s.define.define := by
  refine .cons_value rfl rfl (by simp [Instr.operands, hthis]) ?_
  exact .value rfl rfl (by simp [Instr.operands])

/-- The address of a variable is computed, or it is one of the registers of `S`. -/
theorem emits_variablePtr (known : List Reg) (hΓ : Γ.Addresses ids S I) {id : NodeId} (hid : id ∈ ids) {name : String}
    {ptr : Value} (h : (variablePtr Γ name id).run names = .ok ((code, ptr), names'))
    (hslots : I names.slots) : Emits S I names known code names' [ptr.operand] := by
  obtain ⟨b, hb, _, ⟨hstack, rfl, hptr, rfl⟩ | ⟨C, offset, _, hC, rfl, hptr, rfl⟩⟩ := variablePtr_eq_ok h
  · obtain ⟨hslot, hslots⟩ := hΓ.slot id hid name b hb hstack names hslots
    refine ⟨known, ?_, by simp [hptr, hslot], hslots⟩
    rw [Names.point_slot]
    exact .nil _
  · refine ⟨_, region_field (names.point known) (hΓ.this C hC) offset b.ty, ?_, hslots⟩
    simp [hptr, Names.point, Names.skip]

theorem Lower.isPlain_operation (op : BinOp) (result : Reg) (lhs rhs : Operand) :
    (operation op result lhs rhs).isPlain = true := by
  cases op <;> rfl

theorem Lower.result?_operation (op : BinOp) (result : Reg) (lhs rhs : Operand) :
    (operation op result lhs rhs).result? = some result := by
  cases op <;> rfl

theorem Lower.operands_operation (op : BinOp) (result : Reg) (lhs rhs : Operand) :
    (operation op result lhs rhs).operands = [(lhs, .value .i32), (rhs, .value .i32)] := by
  cases op <;> rfl

mutual

/-- The code of an expression is a region, behind which the expression's value can be used. -/
theorem Expr.emits_lower (hΓ : Γ.Addresses ids S I) : ∀ (e : Expr) {names names' : Names} {code : Code}
    {value : Value} (known : List Reg), nodeIds e.visits ⊆ ids →
    (e.lower Γ).run names = .ok ((code, value), names') → I names.slots →
    Emits S I names known code names' [value.operand]
  | .binary node op left right, names, names', code, value, known, hids, h, hslots => by
      rw [Expr.visits, nodeIds_cons_of_some rfl, nodeIds_append, List.cons_subset, List.append_subset] at hids
      by_cases hop : op = .and
      · subst hop
        obtain ⟨leftCode, leftValue, names₁, rightCode, rightValue, names₂, hleft, hright, rfl, rfl, rfl⟩ :=
          Expr.lower_and_eq_ok h
        obtain ⟨known₁, hleft, hsees₁, hslots⟩ := left.emits_lower hΓ known hids.2.1 hleft hslots
        obtain ⟨known₂, hright, hsees₂, hslots⟩ := right.emits_lower hΓ known₁ hids.2.2 hright hslots
        refine ⟨_, .append hleft (.conjunction (hsees₁ _ List.mem_cons_self) hright
          (hsees₂ _ List.mem_cons_self)), ?_, hslots⟩
        simp [Names.point, Names.skip]
      · obtain ⟨leftCode, leftValue, names₁, rightCode, rightValue, names₂, hleft, hright, rfl, rfl, rfl⟩ :=
          Expr.lower_binary_eq_ok hop h
        obtain ⟨known₁, hleft, hsees₁, hslots⟩ := left.emits_lower hΓ known hids.2.1 hleft hslots
        obtain ⟨known₂, hright, hsees₂, hslots⟩ := right.emits_lower hΓ known₁ hids.2.2 hright hslots
        have hleft₂ := (hsees₁ _ List.mem_cons_self).mono hright.known_subset
        refine ⟨_, .append (.append hleft hright) (.value (isPlain_operation _ _ _ _)
          (result?_operation _ _ _ _) ?_), ?_, hslots⟩
        · simp [operands_operation, hleft₂, hsees₂]
        · simp [Names.point, Names.skip]
  | .element node array index, names, names', code, value, known, hids, h, hslots => by
      rw [Expr.visits, nodeIds_cons_of_some rfl, nodeIds_append, List.cons_subset, List.append_subset] at hids
      obtain ⟨arrayCode, arrayValue, names₁, indexCode, indexValue, names₂, harray, hindex, rfl, rfl, rfl⟩ :=
        Expr.lower_element_eq_ok h
      obtain ⟨known₁, harray, hsees₁, hslots⟩ := array.emits_lower hΓ known hids.2.1 harray hslots
      obtain ⟨known₂, hindex, hsees₂, hslots⟩ := index.emits_lower hΓ known₁ hids.2.2 hindex hslots
      have harray₂ := (hsees₁ _ List.mem_cons_self).mono hindex.known_subset
      have helement := region_element harray₂ (hsees₂ _ List.mem_cons_self)
      refine ⟨_, .append (.append (.append harray hindex) helement) (.value rfl rfl ?_), ?_, hslots⟩
      · simp [Instr.operands, Names.point]
      · simp [Names.point, Names.skip]
  | .length node array, names, names', code, value, known, hids, h, hslots => by
      rw [Expr.visits, nodeIds_cons_of_some rfl, List.cons_subset] at hids
      obtain ⟨arrayCode, arrayValue, names₁, harray, rfl, rfl, rfl⟩ := Expr.lower_length_eq_ok h
      obtain ⟨known₁, harray, hsees₁, hslots⟩ := array.emits_lower hΓ known hids.2 harray hslots
      refine ⟨_, .append harray (.value rfl rfl ?_), ?_, hslots⟩
      · simpa [Instr.operands] using hsees₁
      · simp [Names.point, Names.skip]
  | .call node owner method args, names, names', code, value, known, hids, h, hslots => by
      rw [Expr.visits, nodeIds_cons_of_some rfl, nodeIds_append, List.cons_subset, List.append_subset] at hids
      obtain ⟨ownerCode, ownerValue, names₁, slot, signature, argsCode, actuals, names₂, howner, _, hargs, rfl,
        rfl, rfl⟩ := Expr.lower_call_eq_ok h
      obtain ⟨known₁, howner, hsees₁, hslots⟩ := owner.emits_lower hΓ known hids.2.1 howner hslots
      have hmethod := region_method (hsees₁ _ List.mem_cons_self) slot (.ofMethod signature)
      obtain ⟨known₂, hargs, hsees₂, hslots⟩ := Expr.emits_lowerArgs hΓ args
        (names₁.point known₁).define.define.define.define.define.known hids.2.2 hargs hslots
      have howner₂ := (hsees₁ _ List.mem_cons_self).mono
        (List.Subset.trans hmethod.known_subset hargs.known_subset)
      have hfunction : (names₂.point known₂).Sees S (.reg (.temp (names₁.nextTemp + 4))) :=
        Sees.mono (by simp [Names.point]) hargs.known_subset
      refine ⟨_, .append (.append (.append howner hmethod) hargs) (.value rfl ?_ ?_), ?_, hslots⟩
      · exact Instr.result?_call (by cases signature.ret <;> nofun) _ _ _
      · rw [Instr.operands, List.forall_mem_cons, List.forall_mem_map, List.forall_mem_cons]
        exact ⟨hfunction, howner₂, fun arg harg => hsees₂ _ (List.mem_map_of_mem harg)⟩
      · simp [Names.point, Names.skip]
  | .int _ _, names, names', code, value, known, _, h, hslots => by
      rw [Expr.lower] at h
      cases run_pure_eq_ok.mp h
      exact ⟨known, .nil _, by simp, hslots⟩
  | .bool _ _, names, names', code, value, known, _, h, hslots => by
      rw [Expr.lower] at h
      cases run_pure_eq_ok.mp h
      exact ⟨known, .nil _, by simp, hslots⟩
  | .var node name, names, names', code, value, known, hids, h, hslots => by
      obtain ⟨ptrCode, ptr, names₁, hptr, rfl, rfl, rfl⟩ := Expr.lower_var_eq_ok h
      obtain ⟨known₁, hptr, hsees₁, hslots⟩ := emits_variablePtr _ hΓ (hids List.mem_cons_self) hptr hslots
      refine ⟨_, .append hptr (.value rfl rfl ?_), ?_, hslots⟩
      · simpa [Instr.operands] using hsees₁
      · simp [Names.point, Names.skip]
  | .this node, names, names', code, value, known, _, h, hslots => by
      obtain ⟨C, hC, rfl, rfl, rfl⟩ := Expr.lower_this_eq_ok h
      exact ⟨known, .nil _, by simp [hΓ.this C hC], hslots⟩
  | .newArray node size, names, names', code, value, known, hids, h, hslots => by
      rw [Expr.visits, nodeIds_cons_of_some rfl, List.cons_subset] at hids
      obtain ⟨sizeCode, sizeValue, names₁, hsize, rfl, rfl, rfl⟩ := Expr.lower_newArray_eq_ok h
      obtain ⟨known₁, hsize, hsees₁, hslots⟩ := size.emits_lower hΓ known hids.2 hsize hslots
      refine ⟨_, .append hsize (region_array (hsees₁ _ List.mem_cons_self)), ?_, hslots⟩
      simp [Names.point, Names.skip]
  | .newObject node className, names, names', code, value, known, _, h, hslots => by
      rw [Expr.lower] at h
      obtain ⟨layout, _, rfl, rfl, rfl⟩ := allocObject_eq_ok h
      refine ⟨_, region_object (names.point known) className layout, ?_, hslots⟩
      simp [Names.point, Names.skip]
  | .not node operand, names, names', code, value, known, hids, h, hslots => by
      rw [Expr.visits, nodeIds_cons_of_some rfl, List.cons_subset] at hids
      obtain ⟨operandCode, operandValue, names₁, hoperand, rfl, rfl, rfl⟩ := Expr.lower_not_eq_ok h
      obtain ⟨known₁, hoperand, hsees₁, hslots⟩ := operand.emits_lower hΓ known hids.2 hoperand hslots
      refine ⟨_, .append hoperand (.value rfl rfl ?_), ?_, hslots⟩
      · simpa [Instr.operands] using hsees₁
      · simp [Names.point, Names.skip]

theorem Expr.emits_lowerArgs (hΓ : Γ.Addresses ids S I) : ∀ (args : List Expr) {tys : List IrTy}
    {names names' : Names} {code : Code} {actuals : List (IrTy × Operand)} (known : List Reg),
    nodeIds (Expr.visitsAll args) ⊆ ids →
    (Expr.lowerArgs Γ args tys).run names = .ok ((code, actuals), names') → I names.slots →
    Emits S I names known code names' (actuals.map (·.2))
  | [], tys, names, names', code, actuals, known, _, h, hslots => by
      rw [Expr.lowerArgs] at h
      · cases run_pure_eq_ok.mp h
        exact ⟨known, .nil _, List.forall_mem_nil _, hslots⟩
      · simp
  | arg :: args, [], names, names', code, actuals, known, _, h, hslots => by
      rw [Expr.lowerArgs] at h
      · cases run_pure_eq_ok.mp h
        exact ⟨known, .nil _, List.forall_mem_nil _, hslots⟩
      · simp
  | arg :: args, ty :: tys, names, names', code, actuals, known, hids, h, hslots => by
      rw [Expr.visitsAll, nodeIds_append, List.append_subset] at hids
      obtain ⟨argCode, argValue, names₁, argsCode, rest, harg, hargs, rfl, rfl⟩ := Expr.lowerArgs_cons_eq_ok h
      obtain ⟨known₁, harg, hsees₁, hslots⟩ := arg.emits_lower hΓ known hids.1 harg hslots
      obtain ⟨known₂, hargs, hsees₂, hslots⟩ := Expr.emits_lowerArgs hΓ args known₁ hids.2 hargs hslots
      refine ⟨known₂, .append harg hargs, ?_, hslots⟩
      rw [List.map_cons, List.forall_mem_cons]
      exact ⟨(hsees₁ _ List.mem_cons_self).mono hargs.known_subset, hsees₂⟩

end

mutual

/-- The code of a statement is a region. -/
theorem Stmt.emits_lower (hΓ : Γ.Addresses ids S I) : ∀ (s : Stmt) {names names' : Names} {code : Code}
    (known : List Reg), nodeIds s.visits ⊆ ids → (s.lower Γ).run names = .ok (code, names') →
    I names.slots → Emits S I names known code names' []
  | .block node body, names, names', code, known, hids, h, hslots => by
      rw [Stmt.visits, nodeIds_cons_of_some rfl, List.cons_subset] at hids
      rw [Stmt.lower] at h
      exact Stmt.emits_lowerAll hΓ body known hids.2 h hslots
  | .ifElse node cond thenBranch elseBranch, names, names', code, known, hids, h, hslots => by
      rw [Stmt.visits, nodeIds_cons_of_some rfl, nodeIds_append, nodeIds_append, List.cons_subset,
        List.append_subset, List.append_subset] at hids
      obtain ⟨condCode, condValue, names₁, thenCode, names₂, elseCode, hcond, hthen, helse, rfl⟩ :=
        Stmt.lower_ifElse_eq_ok h
      obtain ⟨known₁, hcond, hsees₁, hslots⟩ := cond.emits_lower hΓ known hids.2.1.1 hcond hslots
      obtain ⟨known₂, hthen, _, hslots⟩ := thenBranch.emits_lower hΓ known₁ hids.2.1.2 hthen hslots
      obtain ⟨known₃, helse, _, hslots⟩ := elseBranch.emits_lower hΓ known₁ hids.2.2 helse hslots
      exact ⟨known₁, .append hcond (.choice (hsees₁ _ List.mem_cons_self) hthen helse), List.forall_mem_nil _, hslots⟩
  | .loop node cond body, names, names', code, known, hids, h, hslots => by
      rw [Stmt.visits, nodeIds_cons_of_some rfl, nodeIds_append, List.cons_subset, List.append_subset] at hids
      obtain ⟨condCode, condValue, names₁, bodyCode, hcond, hbody, rfl⟩ := Stmt.lower_loop_eq_ok h
      obtain ⟨known₁, hcond, hsees₁, hslots⟩ := cond.emits_lower hΓ known hids.2.1 hcond hslots
      obtain ⟨known₂, hbody, _, hslots⟩ := body.emits_lower hΓ known₁ hids.2.2 hbody hslots
      exact ⟨known₁, .cycle hcond (hsees₁ _ List.mem_cons_self) hbody, List.forall_mem_nil _, hslots⟩
  | .print node arg, names, names', code, known, hids, h, hslots => by
      rw [Stmt.visits, nodeIds_cons_of_some rfl, List.cons_subset] at hids
      obtain ⟨argCode, argValue, harg, rfl⟩ := Stmt.lower_print_eq_ok h
      obtain ⟨known₁, harg, hsees₁, hslots⟩ := arg.emits_lower hΓ known hids.2 harg hslots
      refine ⟨known₁, .append harg (.effect rfl rfl ?_), List.forall_mem_nil _, hslots⟩
      simpa [Instr.operands] using hsees₁
  | .assign node target value, names, names', code, known, hids, h, hslots => by
      rw [Stmt.visits, nodeIds_cons_of_some rfl, List.cons_subset] at hids
      obtain ⟨valueCode, operand, names₁, ptrCode, ptr, hvalue, hptr, rfl⟩ := Stmt.lower_assign_eq_ok h
      obtain ⟨known₁, hvalue, hsees₁, hslots⟩ := value.emits_lower hΓ known hids.2 hvalue hslots
      obtain ⟨known₂, hptr, hsees₂, hslots⟩ := emits_variablePtr _ hΓ hids.1 hptr hslots
      have hvalue₂ := (hsees₁ _ List.mem_cons_self).mono hptr.known_subset
      refine ⟨known₂, .append (.append hvalue hptr) (.effect rfl rfl ?_), List.forall_mem_nil _, hslots⟩
      simpa [Instr.operands, hvalue₂] using hsees₂
  | .assignElement node target index value, names, names', code, known, hids, h, hslots => by
      rw [Stmt.visits, nodeIds_cons_of_some rfl, nodeIds_append, List.cons_subset, List.append_subset] at hids
      obtain ⟨ptrCode, ptr, names₁, indexCode, indexValue, names₂, valueCode, operand, names₃, hptr, hindex,
        hvalue, rfl, rfl⟩ := Stmt.lower_assignElement_eq_ok h
      obtain ⟨known₁, hptr, hsees₁, hslots⟩ := emits_variablePtr known hΓ hids.1 hptr hslots
      have hload : Region S (names₁.point known₁)
          [.instr (.load (.temp names₁.nextTemp) (.ptr .i32) ptr.operand)] (names₁.point known₁).define :=
        .value rfl rfl (by simpa [Instr.operands] using hsees₁)
      obtain ⟨known₂, hindex, hsees₂, hslots⟩ := index.emits_lower hΓ
        (names₁.point known₁).define.known hids.2.1 hindex hslots
      obtain ⟨known₃, hvalue, hsees₃, hslots⟩ := value.emits_lower hΓ known₂ hids.2.2 hvalue hslots
      have harray : (names₃.point known₃).Sees S (.reg (.temp names₁.nextTemp)) :=
        Sees.mono (Sees.mono (by simp [Names.point]) hindex.known_subset) hvalue.known_subset
      have hindex₃ := (hsees₂ _ List.mem_cons_self).mono hvalue.known_subset
      have helement := region_element harray hindex₃
      refine ⟨_, .append (.append (.append (.append (.append hptr hload) hindex) hvalue) helement)
        (.effect rfl rfl ?_), List.forall_mem_nil _, hslots⟩
      have hvalue₄ := (hsees₃ _ List.mem_cons_self).mono helement.known_subset
      simpa [Instr.operands, Names.point] using hvalue₄

theorem Stmt.emits_lowerAll (hΓ : Γ.Addresses ids S I) : ∀ (ss : List Stmt) {names names' : Names}
    {code : Code} (known : List Reg), nodeIds (Stmt.visitsAll ss) ⊆ ids →
    (Stmt.lowerAll Γ ss).run names = .ok (code, names') → I names.slots →
    Emits S I names known code names' []
  | [], names, names', code, known, _, h, hslots => by
      rw [Stmt.lowerAll] at h
      cases run_pure_eq_ok.mp h
      exact ⟨known, .nil _, List.forall_mem_nil _, hslots⟩
  | s :: rest, names, names', code, known, hids, h, hslots => by
      rw [Stmt.visitsAll, nodeIds_append, List.append_subset] at hids
      obtain ⟨first, names₁, restCode, hs, hrest, rfl⟩ := Stmt.lowerAll_cons_eq_ok h
      obtain ⟨known₁, hs, _, hslots⟩ := s.emits_lower hΓ known hids.1 hs hslots
      obtain ⟨known₂, hrest, _, hslots⟩ := Stmt.emits_lowerAll hΓ rest known₁ hids.2 hrest hslots
      exact ⟨known₂, .append hs hrest, List.forall_mem_nil _, hslots⟩

end

end

end Demitasse
