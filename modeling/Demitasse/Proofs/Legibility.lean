import Demitasse.Proofs.Mentions
import Demitasse.Proofs.SingleAssignment

/-! Lowered code is legible: the text of a label or of a register holds neither a mark nor the end of a line. Labels
start with words of the compiler, temporaries are numbered, and the other registers are named by words of the program;
so the marks in the text of a function are those of the global names that its code mentions. -/

namespace Demitasse

open Lower

theorem IsWord.isWordChar {text : List Char} (h : IsWord text) : ∀ c ∈ text, isWordChar c = true := by
  obtain ⟨c, cs, rfl, hc, hcs⟩ := h
  refine List.forall_mem_cons.mpr ⟨?_, hcs⟩
  simp [Demitasse.isWordChar, Char.isAlphanum, hc]

theorem IsWord.isNameChar {text : List Char} (h : IsWord text) : ∀ c ∈ text, isNameChar c = true := by
  intro c hc
  rw [Demitasse.isNameChar, h.isWordChar c hc]
  rfl

theorem IsRegName.isNameChar {name : String} (h : IsRegName name) : ∀ c ∈ name.toList, isNameChar c = true := by
  rcases h with hword | ⟨word, hname, hword⟩
  · exact hword.isNameChar
  · rw [hname]
    exact List.forall_mem_cons.mpr ⟨rfl, hword.isNameChar⟩

theorem Reg.Clear.legible {r : Reg} (h : r.Clear) : r.Legible := by
  cases r with
  | temp n => trivial
  | named name =>
      refine ⟨IsRegName.isNameChar h, fun n hn => h.shown ?_⟩
      rw [hn, List.head?_cons]

theorem Label.legible_of_all {stem : String} (h : stem.toList.all isNameChar = true) (n : Nat) :
    Legible ⟨stem, n⟩ :=
  List.all_eq_true.mp h

theorem Context.Addresses.mono {Γ : Context} {ids : List NodeId} {S S' : Reg → Prop} {I : List (NodeId × Reg) → Prop}
    (h : Γ.Addresses ids S I) (hS : ∀ r, S r → S' r) : Γ.Addresses ids S' I := by
  refine ⟨fun C hC => hS _ (h.this C hC), fun id hid name b hb hstack names hnames => ?_⟩
  obtain ⟨hslot, hslots⟩ := h.slot id hid name b hb hstack names hnames
  exact ⟨hS _ hslot, hslots⟩

/-- What lowering finds for names and classes is legible. -/
structure Context.Legible (Γ : Context) (ids : List NodeId) (I : List (NodeId × Reg) → Prop) : Prop where
  addresses : Γ.Addresses ids Reg.Legible I
  tables : ∀ C l, Γ.analysis.catalog.layout? C = some l → IsGlobalName (methodTableName C)

section
variable {Γ : Context} {ids : List NodeId} {I : List (NodeId × Reg) → Prop} {names names' : Names} {code : Code}

theorem clean_throwCall : Code.Clean [throwCall] := by
  have hname : IsGlobalName throwOutOfBounds.sig.name := isGlobalName_of_mem_runtimeNames _ (by decide)
  simp [throwCall, Instr.Clean, hname]

theorem Code.clean_guarded {stem : String} {n : Nat} {cond : Operand} {body : Code}
    (hstem : stem.toList.all isNameChar = true) (hcond : cond.Clean) (hbody : body.Clean) :
    (guarded stem n cond body).Clean := by
  simp [guarded, Instr.Clean, Label.legible_of_all hstem, hcond, hbody]

theorem clean_elementCode {array index : Operand} (harray : array.Clean) (hindex : index.Clean) :
    (elementCode names array index).Clean := by
  have hstem : "oob".toList.all isNameChar = true := rfl
  simp [elementCode, Code.clean_guarded hstem, Instr.Clean, harray, hindex, clean_throwCall]

theorem clean_arrayCode {length : Operand} (hlength : length.Clean) : (arrayCode names length).Clean := by
  have hcalloc : IsGlobalName calloc.name := isGlobalName_of_mem_runtimeNames _ (by decide)
  rw [arrayCode, Code.clean_append, Code.clean_instr]
  refine ⟨⟨?_, Code.clean_guarded rfl (by simp) clean_throwCall⟩, ?_⟩
  · simp [Instr.Clean, hlength]
  · simp [Instr.Clean, hlength, hcalloc, CalleeTy.ret, IrTy.address_ne_void]

theorem clean_objectCode {className : String} (hname : IsGlobalName (methodTableName className)) (layout : Layout) :
    (objectCode names className layout).Clean := by
  have hcalloc : IsGlobalName calloc.name := isGlobalName_of_mem_runtimeNames _ (by decide)
  simp [objectCode, Instr.Clean, hname, hcalloc, CalleeTy.ret, IrTy.address_ne_void]

theorem clean_methodCode {owner : Operand} (howner : owner.Clean) (slot : Nat) (sig : FnSig) :
    (methodCode names owner slot sig).Clean := by
  simp [methodCode, Instr.Clean, howner]

theorem clean_fieldCode (hthis : Reg.this.Legible) (offset : Nat) (ty : Ty) :
    (fieldCode names offset ty).Clean := by
  simp [fieldCode, Instr.Clean, hthis]

theorem clean_variablePtr (hΓ : Γ.Legible ids I) {id : NodeId} (hid : id ∈ ids) {name : String} {ptr : Value}
    (h : (variablePtr Γ name id).run names = .ok ((code, ptr), names')) (hslots : I names.slots) :
    code.Clean ∧ ptr.operand.Clean ∧ I names'.slots := by
  obtain ⟨b, hb, _, ⟨hstack, rfl, hptr, rfl⟩ | ⟨C, offset, _, hC, rfl, hptr, rfl⟩⟩ := variablePtr_eq_ok h
  · obtain ⟨hslot, hslots⟩ := hΓ.addresses.slot id hid name b hb hstack names hslots
    rw [hptr]
    exact ⟨Code.clean_nil, hslot, hslots⟩
  · rw [hptr]
    exact ⟨clean_fieldCode (hΓ.addresses.this C hC) offset b.ty, Operand.clean_temp _, hslots⟩

theorem Lower.clean_operation (op : BinOp) {result : Reg} {lhs rhs : Operand} (hresult : result.Legible)
    (hlhs : lhs.Clean) (hrhs : rhs.Clean) : (operation op result lhs rhs).Clean := by
  cases op <;> exact ⟨hresult, hlhs, hrhs⟩

mutual

/-- The code of an expression and its value are legible. -/
theorem Expr.clean_lower (hΓ : Γ.Legible ids I) : ∀ (e : Expr) {names names' : Names} {code : Code} {value : Value},
    nodeIds e.visits ⊆ ids → (e.lower Γ).run names = .ok ((code, value), names') → I names.slots →
    code.Clean ∧ value.operand.Clean ∧ I names'.slots
  | .binary node op left right, names, names', code, value, hids, h, hslots => by
      rw [Expr.visits, nodeIds_cons_of_some rfl, nodeIds_append, List.cons_subset, List.append_subset] at hids
      by_cases hop : op = .and
      · subst hop
        obtain ⟨leftCode, leftValue, names₁, rightCode, rightValue, names₂, hleft, hright, rfl, rfl, rfl⟩ :=
          Expr.lower_and_eq_ok h
        obtain ⟨hleft, hleftValue, hslots⟩ := left.clean_lower hΓ hids.2.1 hleft hslots
        obtain ⟨hright, hrightValue, hslots⟩ := right.clean_lower hΓ hids.2.2 hright hslots
        refine ⟨?_, Operand.clean_temp _, hslots⟩
        have hstem : ∀ n, Label.Legible ⟨"andcond", n⟩ := Label.legible_of_all rfl
        simp [Code.conjunction, Instr.Clean, hstem, hleft, hleftValue, hright, hrightValue]
      · obtain ⟨leftCode, leftValue, names₁, rightCode, rightValue, names₂, hleft, hright, rfl, rfl, rfl⟩ :=
          Expr.lower_binary_eq_ok hop h
        obtain ⟨hleft, hleftValue, hslots⟩ := left.clean_lower hΓ hids.2.1 hleft hslots
        obtain ⟨hright, hrightValue, hslots⟩ := right.clean_lower hΓ hids.2.2 hright hslots
        refine ⟨?_, Operand.clean_temp _, hslots⟩
        simp [hleft, hright, clean_operation op (Reg.legible_temp _) hleftValue hrightValue]
  | .element node array index, names, names', code, value, hids, h, hslots => by
      rw [Expr.visits, nodeIds_cons_of_some rfl, nodeIds_append, List.cons_subset, List.append_subset] at hids
      obtain ⟨arrayCode, arrayValue, names₁, indexCode, indexValue, names₂, harray, hindex, rfl, rfl, rfl⟩ :=
        Expr.lower_element_eq_ok h
      obtain ⟨harray, harrayValue, hslots⟩ := array.clean_lower hΓ hids.2.1 harray hslots
      obtain ⟨hindex, hindexValue, hslots⟩ := index.clean_lower hΓ hids.2.2 hindex hslots
      refine ⟨?_, Operand.clean_temp _, hslots⟩
      simp [Instr.Clean, harray, hindex, clean_elementCode harrayValue hindexValue]
  | .length node array, names, names', code, value, hids, h, hslots => by
      rw [Expr.visits, nodeIds_cons_of_some rfl, List.cons_subset] at hids
      obtain ⟨arrayCode, arrayValue, names₁, harray, rfl, rfl, rfl⟩ := Expr.lower_length_eq_ok h
      obtain ⟨harray, harrayValue, hslots⟩ := array.clean_lower hΓ hids.2 harray hslots
      exact ⟨by simp [Instr.Clean, harray, harrayValue], Operand.clean_temp _, hslots⟩
  | .call node owner method args, names, names', code, value, hids, h, hslots => by
      rw [Expr.visits, nodeIds_cons_of_some rfl, nodeIds_append, List.cons_subset, List.append_subset] at hids
      obtain ⟨ownerCode, ownerValue, names₁, slot, signature, argsCode, actuals, names₂, howner, _, hargs, rfl,
        rfl, rfl⟩ := Expr.lower_call_eq_ok h
      obtain ⟨howner, hownerValue, hslots⟩ := owner.clean_lower hΓ hids.2.1 howner hslots
      obtain ⟨hargs, hactuals, hslots⟩ := Expr.clean_lowerArgs hΓ args hids.2.2 hargs hslots
      have hcall : Instr.Clean (.call (some (.temp names₂.nextTemp)) (.returns signature.ret.ir)
          (.reg (.temp (names₁.nextTemp + 4))) ((.address, ownerValue.operand) :: actuals)) := by
        refine ⟨fun r hr => ?_, Operand.clean_temp _, List.forall_mem_cons.mpr ⟨hownerValue, hactuals⟩⟩
        cases hr
        exact ⟨Reg.legible_temp _, signature.ret.ir_ne_void⟩
      refine ⟨?_, Operand.clean_temp _, hslots⟩
      simp [howner, clean_methodCode hownerValue, hargs, hcall]
  | .int _ _, names, names', code, value, _, h, hslots => by
      rw [Expr.lower] at h
      cases run_pure_eq_ok.mp h
      exact ⟨Code.clean_nil, trivial, hslots⟩
  | .bool _ _, names, names', code, value, _, h, hslots => by
      rw [Expr.lower] at h
      cases run_pure_eq_ok.mp h
      exact ⟨Code.clean_nil, trivial, hslots⟩
  | .var node name, names, names', code, value, hids, h, hslots => by
      obtain ⟨ptrCode, ptr, names₁, hptr, rfl, rfl, rfl⟩ := Expr.lower_var_eq_ok h
      obtain ⟨hcode, hptr, hslots⟩ := clean_variablePtr hΓ (hids List.mem_cons_self) hptr hslots
      exact ⟨by simp [Instr.Clean, hcode, hptr], Operand.clean_temp _, hslots⟩
  | .this node, names, names', code, value, _, h, hslots => by
      obtain ⟨C, hC, rfl, rfl, rfl⟩ := Expr.lower_this_eq_ok h
      exact ⟨Code.clean_nil, hΓ.addresses.this C hC, hslots⟩
  | .newArray node size, names, names', code, value, hids, h, hslots => by
      rw [Expr.visits, nodeIds_cons_of_some rfl, List.cons_subset] at hids
      obtain ⟨sizeCode, sizeValue, names₁, hsize, rfl, rfl, rfl⟩ := Expr.lower_newArray_eq_ok h
      obtain ⟨hsize, hsizeValue, hslots⟩ := size.clean_lower hΓ hids.2 hsize hslots
      exact ⟨Code.clean_append.mpr ⟨hsize, clean_arrayCode hsizeValue⟩, Operand.clean_temp _, hslots⟩
  | .newObject node className, names, names', code, value, _, h, hslots => by
      rw [Expr.lower] at h
      obtain ⟨layout, hlayout, rfl, rfl, rfl⟩ := allocObject_eq_ok h
      exact ⟨clean_objectCode (hΓ.tables className layout hlayout) layout, Operand.clean_temp _, hslots⟩
  | .not node operand, names, names', code, value, hids, h, hslots => by
      rw [Expr.visits, nodeIds_cons_of_some rfl, List.cons_subset] at hids
      obtain ⟨operandCode, operandValue, names₁, hoperand, rfl, rfl, rfl⟩ := Expr.lower_not_eq_ok h
      obtain ⟨hoperand, hoperandValue, hslots⟩ := operand.clean_lower hΓ hids.2 hoperand hslots
      exact ⟨by simp [Instr.Clean, hoperand, hoperandValue], Operand.clean_temp _, hslots⟩

theorem Expr.clean_lowerArgs (hΓ : Γ.Legible ids I) : ∀ (args : List Expr) {tys : List IrTy} {names names' : Names}
    {code : Code} {actuals : List (IrTy × Operand)}, nodeIds (Expr.visitsAll args) ⊆ ids →
    (Expr.lowerArgs Γ args tys).run names = .ok ((code, actuals), names') → I names.slots →
    code.Clean ∧ (∀ arg ∈ actuals, arg.2.Clean) ∧ I names'.slots
  | [], tys, names, names', code, actuals, _, h, hslots => by
      rw [Expr.lowerArgs] at h
      · cases run_pure_eq_ok.mp h
        exact ⟨Code.clean_nil, List.forall_mem_nil _, hslots⟩
      · simp
  | arg :: args, [], names, names', code, actuals, _, h, hslots => by
      rw [Expr.lowerArgs] at h
      · cases run_pure_eq_ok.mp h
        exact ⟨Code.clean_nil, List.forall_mem_nil _, hslots⟩
      · simp
  | arg :: args, ty :: tys, names, names', code, actuals, hids, h, hslots => by
      rw [Expr.visitsAll, nodeIds_append, List.append_subset] at hids
      obtain ⟨argCode, argValue, names₁, argsCode, rest, harg, hargs, rfl, rfl⟩ := Expr.lowerArgs_cons_eq_ok h
      obtain ⟨harg, hvalue, hslots⟩ := arg.clean_lower hΓ hids.1 harg hslots
      obtain ⟨hargs, hrest, hslots⟩ := Expr.clean_lowerArgs hΓ args hids.2 hargs hslots
      exact ⟨Code.clean_append.mpr ⟨harg, hargs⟩, List.forall_mem_cons.mpr ⟨hvalue, hrest⟩, hslots⟩

end

mutual

/-- The code of a statement is legible. -/
theorem Stmt.clean_lower (hΓ : Γ.Legible ids I) : ∀ (s : Stmt) {names names' : Names} {code : Code},
    nodeIds s.visits ⊆ ids → (s.lower Γ).run names = .ok (code, names') → I names.slots →
    code.Clean ∧ I names'.slots
  | .block node body, names, names', code, hids, h, hslots => by
      rw [Stmt.visits, nodeIds_cons_of_some rfl, List.cons_subset] at hids
      rw [Stmt.lower] at h
      exact Stmt.clean_lowerAll hΓ body hids.2 h hslots
  | .ifElse node cond thenBranch elseBranch, names, names', code, hids, h, hslots => by
      rw [Stmt.visits, nodeIds_cons_of_some rfl, nodeIds_append, nodeIds_append, List.cons_subset,
        List.append_subset, List.append_subset] at hids
      obtain ⟨condCode, condValue, names₁, thenCode, names₂, elseCode, hcond, hthen, helse, rfl⟩ :=
        Stmt.lower_ifElse_eq_ok h
      obtain ⟨hcond, hcondValue, hslots⟩ := cond.clean_lower hΓ hids.2.1.1 hcond hslots
      obtain ⟨hthen, hslots⟩ := thenBranch.clean_lower hΓ hids.2.1.2 hthen hslots
      obtain ⟨helse, hslots⟩ := elseBranch.clean_lower hΓ hids.2.2 helse hslots
      have hstem : ∀ n, Label.Legible ⟨"if", n⟩ := Label.legible_of_all rfl
      exact ⟨by simp [Code.choice, Instr.Clean, hstem, hcond, hcondValue, hthen, helse], hslots⟩
  | .loop node cond body, names, names', code, hids, h, hslots => by
      rw [Stmt.visits, nodeIds_cons_of_some rfl, nodeIds_append, List.cons_subset, List.append_subset] at hids
      obtain ⟨condCode, condValue, names₁, bodyCode, hcond, hbody, rfl⟩ := Stmt.lower_loop_eq_ok h
      obtain ⟨hcond, hcondValue, hslots⟩ := cond.clean_lower hΓ hids.2.1 hcond hslots
      obtain ⟨hbody, hslots⟩ := body.clean_lower hΓ hids.2.2 hbody hslots
      have hstem : ∀ n, Label.Legible ⟨"loop", n⟩ := Label.legible_of_all rfl
      exact ⟨by simp [Code.cycle, Instr.Clean, hstem, hcond, hcondValue, hbody], hslots⟩
  | .print node arg, names, names', code, hids, h, hslots => by
      rw [Stmt.visits, nodeIds_cons_of_some rfl, List.cons_subset] at hids
      obtain ⟨argCode, argValue, harg, rfl⟩ := Stmt.lower_print_eq_ok h
      obtain ⟨harg, hvalue, hslots⟩ := arg.clean_lower hΓ hids.2 harg hslots
      have hprint : IsGlobalName printInt.sig.name := isGlobalName_of_mem_runtimeNames _ (by decide)
      exact ⟨by simp [Instr.Clean, harg, hvalue, hprint], hslots⟩
  | .assign node target value, names, names', code, hids, h, hslots => by
      rw [Stmt.visits, nodeIds_cons_of_some rfl, List.cons_subset] at hids
      obtain ⟨valueCode, operand, names₁, ptrCode, ptr, hvalue, hptr, rfl⟩ := Stmt.lower_assign_eq_ok h
      obtain ⟨hvalue, hoperand, hslots⟩ := value.clean_lower hΓ hids.2 hvalue hslots
      obtain ⟨hcode, hptr, hslots⟩ := clean_variablePtr hΓ hids.1 hptr hslots
      exact ⟨by simp [Instr.Clean, hvalue, hoperand, hcode, hptr], hslots⟩
  | .assignElement node target index value, names, names', code, hids, h, hslots => by
      rw [Stmt.visits, nodeIds_cons_of_some rfl, nodeIds_append, List.cons_subset, List.append_subset] at hids
      obtain ⟨ptrCode, ptr, names₁, indexCode, indexValue, names₂, valueCode, operand, names₃, hptr, hindex,
        hvalue, rfl, rfl⟩ := Stmt.lower_assignElement_eq_ok h
      obtain ⟨hcode, hptr, hslots⟩ := clean_variablePtr hΓ hids.1 hptr hslots
      obtain ⟨hindex, hindexValue, hslots⟩ := index.clean_lower hΓ hids.2.1 hindex hslots
      obtain ⟨hvalue, hoperand, hslots⟩ := value.clean_lower hΓ hids.2.2 hvalue hslots
      have harray : Operand.Clean (.reg (.temp names₁.nextTemp)) := Operand.clean_temp _
      refine ⟨?_, hslots⟩
      simp [Instr.Clean, hcode, hptr, hindex, hvalue, hoperand, clean_elementCode harray hindexValue]

theorem Stmt.clean_lowerAll (hΓ : Γ.Legible ids I) : ∀ (ss : List Stmt) {names names' : Names} {code : Code},
    nodeIds (Stmt.visitsAll ss) ⊆ ids → (Stmt.lowerAll Γ ss).run names = .ok (code, names') → I names.slots →
    code.Clean ∧ I names'.slots
  | [], names, names', code, _, h, hslots => by
      rw [Stmt.lowerAll] at h
      cases run_pure_eq_ok.mp h
      exact ⟨Code.clean_nil, hslots⟩
  | s :: rest, names, names', code, hids, h, hslots => by
      rw [Stmt.visitsAll, nodeIds_append, List.append_subset] at hids
      obtain ⟨first, names₁, restCode, hs, hrest, rfl⟩ := Stmt.lowerAll_cons_eq_ok h
      obtain ⟨hs, hslots⟩ := s.clean_lower hΓ hids.1 hs hslots
      obtain ⟨hrest, hslots⟩ := Stmt.clean_lowerAll hΓ rest hids.2 hrest hslots
      exact ⟨Code.clean_append.mpr ⟨hs, hrest⟩, hslots⟩

end

end

/-- The classes, the methods and the variables of a program are named by identifiers. -/
structure Program.Identified (p : Program) : Prop where
  classes : ∀ c ∈ p.classes, IsIdentifier c.name
  methods : ∀ c ∈ p.classes, ∀ m ∈ c.methods, IsIdentifier m.name
  vars : ∀ c ∈ p.classes, ∀ m ∈ c.methods, ∀ v ∈ m.stackVars, IsIdentifier v.name

theorem identified_of_parse {source : String} {p : Program} (h : parse source = .ok p) : p.Identified := by
  obtain ⟨ts, ⟨_, hclasses⟩, hts⟩ := spelled_of_parse h
  refine ⟨fun c hc => ?_, fun c hc m hm => ?_, fun c hc m hm => isIdentifier_of_parse h hc hm⟩
  · obtain ⟨us, hclass, hus⟩ := hclasses.exists_of_mem hc
    obtain ⟨hname, _, _, _⟩ := hclass
    exact ⟨hts (.word c.name) (List.mem_append_right _ (hus (by simp))), hname⟩
  · obtain ⟨us, hclass, hus⟩ := hclasses.exists_of_mem hc
    obtain ⟨_, _, _, hmethods⟩ := hclass
    obtain ⟨vs, hmethod, hvs⟩ := hmethods.exists_of_mem hm
    obtain ⟨_, _, hname, _, _, _, _⟩ := hmethod
    refine ⟨hts (.word m.name) (List.mem_append_right _ (hus ?_)), hname⟩
    simp [hvs (by simp : Token.word m.name ∈ _)]

theorem IsIdentifier.isNameChar {name : String} (h : IsIdentifier name) : ∀ c ∈ name.toList, isNameChar c = true :=
  h.1.isNameChar

theorem isGlobalName_methodTableName {C : String} (h : IsIdentifier C) : IsGlobalName (methodTableName C) := by
  refine ⟨'.' :: (C.toList ++ "_vtable".toList), by simp [methodTableName], ?_⟩
  exact List.forall_mem_cons.mpr ⟨rfl, List.forall_mem_append.mpr ⟨h.isNameChar, List.all_eq_true.mp rfl⟩⟩

theorem isGlobalName_method {m : MethodDecl} {C : String} (hC : IsIdentifier C) (hm : IsIdentifier m.name) :
    IsGlobalName (FnSig.ofMethod (m.signature C)).name := by
  refine ⟨C.toList ++ '.' :: m.name.toList, by simp [FnSig.ofMethod, MethodDecl.signature], ?_⟩
  exact List.forall_mem_append.mpr ⟨hC.isNameChar, List.forall_mem_cons.mpr ⟨rfl, hm.isNameChar⟩⟩

section
variable {a : Analysis} {p : Program} {c : ClassDecl} {m : MethodDecl} {f : IrFunction} {M : IrModule} {t : MethodTable}
  {s : FnSig}

theorem MethodDecl.legible_of_mem_base (hidentifier : ∀ v ∈ m.stackVars, IsIdentifier v.name) {r : Reg}
    (hr : r ∈ m.base) : r.Legible := by
  have hname : ∀ name ∈ m.regNames, (Reg.named name).Legible :=
    fun name hname => Reg.Clear.legible (MethodDecl.isRegName_of_mem hidentifier name hname)
  rw [regNames, List.cons_append, List.forall_mem_cons, List.forall_mem_append, List.forall_mem_map,
    List.forall_mem_map] at hname
  rw [base, List.mem_append, List.mem_reverse, List.mem_cons] at hr
  rcases hr with hvar | rfl | hparam
  · obtain ⟨v, hv, rfl⟩ := List.mem_map.mp hvar
    exact hname.2.2 v hv
  · exact hname.1
  · obtain ⟨v, hv, rfl⟩ := List.mem_map.mp hparam
    exact hname.2.1 v hv

theorem MethodDecl.clean_prologue (hidentifier : ∀ v ∈ m.stackVars, IsIdentifier v.name) :
    (Code.ofInstrs m.prologue).Clean := by
  have hvar : ∀ v ∈ m.stackVars, (Reg.named v.name).Legible := by
    intro v hv
    exact m.legible_of_mem_base hidentifier (List.mem_append_left _ (List.mem_reverse.mpr (List.mem_map_of_mem hv)))
  rw [stackVars, List.forall_mem_append] at hvar
  rw [prologue, Code.ofInstrs_append, Code.clean_append]
  constructor
  · refine List.forall_mem_map.mpr fun i hi => ?_
    obtain ⟨v, hv, hi⟩ := List.mem_flatMap.mp hi
    have hparam : (Reg.param v.name).Legible :=
      m.legible_of_mem_base hidentifier (List.mem_append_right _ (List.mem_cons_of_mem _ (List.mem_map_of_mem hv)))
    rcases List.mem_cons.mp hi with rfl | hi
    · exact hvar.1 v hv
    · obtain rfl := List.mem_singleton.mp hi
      exact ⟨hparam, hvar.1 v hv⟩
  · exact List.forall_mem_map.mpr (List.forall_mem_map.mpr hvar.2)

theorem Analysis.Describes.isGlobalName_table (h : a.Describes p) (hp : p.Identified) {C : String} {l : Layout}
    (hl : a.catalog.layout? C = some l) : IsGlobalName (methodTableName C) := by
  have htable := ((h.methodTable_unique hl _).mpr rfl).1
  rw [h.methodTables] at htable
  obtain ⟨c, hc, heq⟩ := List.mem_map.mp htable
  have hname : methodTableName c.name = methodTableName C := congrArg MethodTable.name heq
  rw [← hname]
  exact isGlobalName_methodTableName (hp.classes c hc)

/-- The function of a method is legible. -/
theorem MethodDecl.clean_lower (h : a.Describes p) (hids : (nodeIds p.visits).Nodup) (hp : p.Identified)
    (hc : c ∈ p.classes) (hm : m ∈ c.methods) (hf : m.lower a c.name = .ok f) : f.Clean := by
  have hidentifier := hp.vars c hc m hm
  obtain ⟨bodyCode, names₁, resultCode, result, names₂, hbody, hresult, rfl⟩ :=
    m.code_of_lower (MethodDecl.nodup_stackVars (Program.nodup_method hids hc hm)) hf
  obtain ⟨hbodyIds, hresultIds⟩ := m.nodeIds_subset
  have hΓ : Context.Legible ⟨a, some c.name⟩ (nodeIds m.visits) (· = m.startNames.slots) :=
    ⟨(h.addresses_method hids hc hm).mono fun r hr => m.legible_of_mem_base hidentifier hr,
      fun C l hl => h.isGlobalName_table hp hl⟩
  obtain ⟨hbody, hslots⟩ := Stmt.clean_lowerAll hΓ m.body hbodyIds hbody rfl
  obtain ⟨hresult, hvalue, _⟩ := m.result.clean_lower hΓ hresultIds hresult hslots
  refine ⟨isGlobalName_method (hp.classes c hc) (hp.methods c hc m hm), ?_, ?_⟩
  · refine List.forall_mem_cons.mpr
      ⟨IsRegName.isNameChar isRegName_this, List.forall_mem_map.mpr (List.forall_mem_map.mpr ?_)⟩
    exact fun v hv => IsRegName.isNameChar (MethodDecl.isRegName_of_mem hidentifier _
      (List.mem_append_left _ (List.mem_cons_of_mem _ (List.mem_map_of_mem hv))))
  · simp [m.clean_prologue hidentifier, hbody, hresult, Instr.Clean, hvalue]

theorem MainClass.clean_lower (h : a.Describes p) (hids : (nodeIds p.visits).Nodup) (hp : p.Identified)
    (hf : p.main.lower a = .ok f) : f.Clean := by
  obtain ⟨code, names, hbody, rfl⟩ := MainClass.lower_eq_ok hf
  have hΓ : Context.Legible ⟨a, none⟩ (nodeIds p.main.visits) fun _ => True :=
    ⟨h.addresses_main hids _ _, fun C l hl => h.isGlobalName_table hp hl⟩
  have hsub : nodeIds p.main.body.visits ⊆ nodeIds p.main.visits := fun id hid => List.mem_cons_of_mem _ hid
  obtain ⟨hcode, _⟩ := p.main.body.clean_lower hΓ hsub hbody trivial
  refine ⟨⟨['m', 'a', 'i', 'n'], by simp, List.all_eq_true.mp rfl⟩, List.forall_mem_nil _, ?_⟩
  simp [hcode, Instr.Clean]

/-- All functions of the module are legible. -/
theorem Analysis.Describes.clean (h : a.Describes p) (hids : (nodeIds p.visits).Nodup) (hp : p.Identified)
    (hM : p.lower a = .ok M) : ∀ f ∈ M.functions, f.Clean := by
  intro f hf
  rcases ((Program.lower_eq_ok hM).2.2 f).mp hf with hmain | ⟨c, hc, m, hm, hmethod⟩
  · exact MainClass.clean_lower h hids hp hmain
  · exact MethodDecl.clean_lower h hids hp hc hm hmethod

theorem MethodDecl.sig_of_lower {className : String} (h : m.lower a className = .ok f) :
    f.sig = .ofMethod (m.signature className) := by
  obtain ⟨_, _, _, _, _, _, _, _, _, _, _, _, _, rfl⟩ := MethodDecl.lower_eq_ok h
  rfl

theorem FnSig.name_ofMethod (m : MethodDecl) (className : String) :
    (FnSig.ofMethod (m.signature className)).name = "@" ++ className ++ "." ++ m.name := by
  change "@" ++ (className ++ "." ++ m.name) = _
  simp only [String.append_assoc]

theorem Analysis.Describes.tableNames (h : a.Describes p) (hM : p.lower a = .ok M) :
    M.tables.map (·.name) = p.classes.map fun c => methodTableName c.name := by
  rw [(Program.lower_eq_ok hM).2.1, h.methodTables, List.map_map]
  rfl

/-- The entries of a method table are functions of methods, and these are in the module. -/
theorem Analysis.Describes.function_of_entry (h : a.Describes p) (hM : p.lower a = .ok M) (ht : t ∈ M.tables)
    (hs : s ∈ t.entries) : ∃ K ∈ p.classes, ∃ m ∈ K.methods, s.name = "@" ++ K.name ++ "." ++ m.name ∧
      ∃ f ∈ M.functions, f.sig = s := by
  rw [(Program.lower_eq_ok hM).2.1, h.methodTables] at ht
  obtain ⟨c, hc, rfl⟩ := List.mem_map.mp ht
  obtain ⟨signature, hsignature, rfl⟩ := List.mem_map.mp hs
  obtain ⟨e, he, rfl⟩ := List.mem_map.mp hsignature
  have hlayout := h.layout?_of_mem hc
  rw [h.layout?] at hlayout
  rw [Layout.methods_of_ofLineage hlayout] at he
  obtain ⟨K, hK, he⟩ := Table.mem_entries_along he
  obtain ⟨m, hm, rfl⟩ := List.mem_map.mp he
  obtain ⟨f, hf, hlower⟩ := Program.exists_function hM (h.mem_classes hK) hm
  exact ⟨K, h.mem_classes hK, m, hm, FnSig.name_ofMethod m K.name, f, hf, MethodDecl.sig_of_lower hlower⟩

theorem Analysis.Describes.clean_table (h : a.Describes p) (hids : (nodeIds p.visits).Nodup) (hp : p.Identified)
    (hM : p.lower a = .ok M) (ht : t ∈ M.tables) : t.Clean := by
  constructor
  · have hname := List.mem_map_of_mem (f := MethodTable.name) ht
    rw [h.tableNames hM] at hname
    obtain ⟨c, hc, heq⟩ := List.mem_map.mp hname
    rw [← heq]
    exact isGlobalName_methodTableName (hp.classes c hc)
  · intro s hs
    obtain ⟨_, _, _, _, _, f, hf, rfl⟩ := h.function_of_entry hM ht hs
    exact (h.clean hids hp hM f hf).name

end

end Demitasse
