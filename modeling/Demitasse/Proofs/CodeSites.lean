import Demitasse.Proofs.ControlFlow
import Demitasse.Proofs.Machine
import Demitasse.Proofs.Visibility

/-!
Where the code of an expression or a statement stands. The code of a part is a piece of the code of the whole, so all
that a routine is made of has its code in the function of the routine. Only arguments that no parameter stands for are
left out, and a checked program has none of them.
-/

namespace Demitasse

open Lower

/-- The code of an expression is a piece of other code. -/
def Expr.CodeIn (Γ : Context) (C : Code) (e : Expr) : Prop :=
  ∃ names code value names', (e.lower Γ).run names = .ok ((code, value), names') ∧ code <:+: C

/-- The code of a statement is a piece of other code. -/
def Stmt.CodeIn (Γ : Context) (C : Code) (s : Stmt) : Prop :=
  ∃ names code names', (s.lower Γ).run names = .ok (code, names') ∧ code <:+: C

/-- An argument of a call that no parameter of the called method stands for. -/
def Expr.Surplus (Γ : Context) (d c : Expr) : Prop :=
  ∃ node owner method args names code value names' slot signature, d = .call node owner method args ∧
    (owner.lower Γ).run names = .ok ((code, value), names') ∧
    (dispatch Γ value.ty method).run names' = .ok ((slot, signature), names') ∧
    c ∈ args.drop signature.formalTypes.length

/-- An expression stands in an argument that no parameter stands for. -/
def Expr.Dropped (Γ : Context) (e d : Expr) : Prop :=
  ∃ call c, Expr.Inside call d ∧ call.Surplus Γ c ∧ e.Inside c

namespace Code

variable {n : Nat} {cond left right : Operand} {thenCode elseCode condCode body rightCode : Code} {result : Reg}

theorem infix_choice_left : thenCode <:+: choice n cond thenCode elseCode := by
  rw [choice, List.append_assoc, List.append_assoc]
  exact List.infix_append _ _ _

theorem infix_choice_right : elseCode <:+: choice n cond thenCode elseCode :=
  List.infix_append _ _ _

theorem infix_cycle_cond : condCode <:+: cycle n condCode cond body := by
  rw [cycle, List.append_assoc, List.append_assoc]
  exact List.infix_append _ _ _

theorem infix_cycle_body : body <:+: cycle n condCode cond body :=
  List.infix_append _ _ _

theorem infix_conjunction : rightCode <:+: conjunction n left rightCode right result :=
  List.infix_append _ _ _

end Code

section
variable {Γ : Context} {C C' : Code}

theorem Expr.CodeIn.mono {e : Expr} (h : e.CodeIn Γ C) (hC : C <:+: C') : e.CodeIn Γ C' := by
  obtain ⟨names, code, value, names', hrun, hcode⟩ := h
  exact ⟨names, code, value, names', hrun, hcode.trans hC⟩

theorem Stmt.CodeIn.mono {s : Stmt} (h : s.CodeIn Γ C) (hC : C <:+: C') : s.CodeIn Γ C' := by
  obtain ⟨names, code, names', hrun, hcode⟩ := h
  exact ⟨names, code, names', hrun, hcode.trans hC⟩

theorem Expr.codeIn_of_run {e : Expr} {names names' : Names} {code : Code} {value : Value}
    (h : (e.lower Γ).run names = .ok ((code, value), names')) (hcode : code <:+: C) : e.CodeIn Γ C :=
  ⟨names, code, value, names', h, hcode⟩

theorem Stmt.codeIn_of_run {s : Stmt} {names names' : Names} {code : Code}
    (h : (s.lower Γ).run names = .ok (code, names')) (hcode : code <:+: C) : s.CodeIn Γ C :=
  ⟨names, code, names', h, hcode⟩

/-- As many arguments have code as there are parameters. -/
theorem Expr.codeIn_of_lowerArgs : ∀ (args : List Expr) (tys : List IrTy) {names names' : Names} {code : Code}
    {actuals : List (IrTy × Operand)}, (Expr.lowerArgs Γ args tys).run names = .ok ((code, actuals), names') →
    ∀ c ∈ args, c.CodeIn Γ code ∨ c ∈ args.drop tys.length
  | [], _, _, _, _, _, _ => List.forall_mem_nil _
  | _ :: _, [], _, _, _, _, _ => fun _ hc => .inr hc
  | arg :: args, ty :: tys, _, _, _, _, h => by
      obtain ⟨argCode, argValue, names₁, argsCode, rest, harg, hargs, rfl, rfl⟩ := Expr.lowerArgs_cons_eq_ok h
      rw [List.forall_mem_cons]
      refine ⟨.inl (Expr.codeIn_of_run harg (List.prefix_append _ _).isInfix), fun c hc => ?_⟩
      refine (Expr.codeIn_of_lowerArgs args tys hargs c hc).imp_left fun h => ?_
      exact h.mono (List.suffix_append _ _).isInfix

/-- What an expression is made of has its code in that of the expression, unless it is an argument without a
parameter. -/
theorem Expr.codeIn_of_child {d : Expr} {names names' : Names} {code : Code} {value : Value}
    (h : (d.lower Γ).run names = .ok ((code, value), names')) :
    ∀ c ∈ d.children, c.CodeIn Γ code ∨ d.Surplus Γ c := by
  cases d with
  | binary node op left right =>
      rw [Expr.children, List.forall_mem_cons, List.forall_mem_singleton]
      by_cases hop : op = .and
      · subst hop
        obtain ⟨leftCode, leftValue, names₁, rightCode, rightValue, names₂, hleft, hright, rfl, _, _⟩ :=
          Expr.lower_and_eq_ok h
        exact ⟨.inl (Expr.codeIn_of_run hleft (List.prefix_append _ _).isInfix),
          .inl (Expr.codeIn_of_run hright (Code.infix_conjunction.trans (List.suffix_append _ _).isInfix))⟩
      · obtain ⟨leftCode, leftValue, names₁, rightCode, rightValue, names₂, hleft, hright, rfl, _, _⟩ :=
          Expr.lower_binary_eq_ok hop h
        refine ⟨.inl (Expr.codeIn_of_run hleft ?_), .inl (Expr.codeIn_of_run hright (List.infix_append _ _ _))⟩
        rw [List.append_assoc]
        exact (List.prefix_append _ _).isInfix
  | element node array index =>
      rw [Expr.children, List.forall_mem_cons, List.forall_mem_singleton]
      obtain ⟨arrayCode, arrayValue, names₁, indexCode, indexValue, names₂, harray, hindex, rfl, _, _⟩ :=
        Expr.lower_element_eq_ok h
      rw [List.append_assoc]
      refine ⟨.inl (Expr.codeIn_of_run harray ?_), .inl (Expr.codeIn_of_run hindex (List.infix_append _ _ _))⟩
      rw [List.append_assoc]
      exact (List.prefix_append _ _).isInfix
  | length node array =>
      obtain ⟨arrayCode, arrayValue, names₁, harray, rfl, _, _⟩ := Expr.lower_length_eq_ok h
      rw [Expr.children, List.forall_mem_singleton]
      exact .inl (Expr.codeIn_of_run harray (List.prefix_append _ _).isInfix)
  | call node owner method args =>
      obtain ⟨ownerCode, ownerValue, names₁, slot, signature, argsCode, actuals, names₂, howner, hdispatch, hargs, rfl,
        _, _⟩ := Expr.lower_call_eq_ok h
      rw [Expr.children, List.forall_mem_cons]
      refine ⟨.inl (Expr.codeIn_of_run howner ?_), fun c hc => ?_⟩
      · rw [List.append_assoc, List.append_assoc]
        exact (List.prefix_append _ _).isInfix
      · refine (Expr.codeIn_of_lowerArgs args _ hargs c hc).imp (fun hc => ?_) fun hc => ?_
        · exact hc.mono (List.infix_append _ _ _)
        · rw [List.length_map] at hc
          exact ⟨node, owner, method, args, names, ownerCode, ownerValue, names₁, slot, signature, rfl, howner,
            hdispatch, hc⟩
  | newArray node size =>
      obtain ⟨sizeCode, sizeValue, names₁, hsize, rfl, _, _⟩ := Expr.lower_newArray_eq_ok h
      rw [Expr.children, List.forall_mem_singleton]
      exact .inl (Expr.codeIn_of_run hsize (List.prefix_append _ _).isInfix)
  | not node operand =>
      obtain ⟨operandCode, operandValue, names₁, hoperand, rfl, _, _⟩ := Expr.lower_not_eq_ok h
      rw [Expr.children, List.forall_mem_singleton]
      exact .inl (Expr.codeIn_of_run hoperand (List.prefix_append _ _).isInfix)
  | _ => exact List.forall_mem_nil _

/-- Every expression inside of another one has its code there, unless it is dropped. -/
theorem Expr.CodeIn.inside {d e : Expr} (he : e.Inside d) (hd : d.CodeIn Γ C) : e.CodeIn Γ C ∨ e.Dropped Γ d := by
  induction he with
  | self => exact .inl hd
  | @child d c hc he ih =>
      obtain ⟨names, code, value, names', hrun, hcode⟩ := hd
      rcases Expr.codeIn_of_child hrun c hc with hchild | hsurplus
      · refine (ih (hchild.mono hcode)).imp_right ?_
        rintro ⟨call, arg, hcall, hsurplus, harg⟩
        exact ⟨call, arg, .child hc hcall, hsurplus, harg⟩
      · exact .inr ⟨d, c, .self, hsurplus, he⟩

theorem Stmt.codeIn_of_lowerAll : ∀ (ss : List Stmt) {names names' : Names} {code : Code},
    (Stmt.lowerAll Γ ss).run names = .ok (code, names') → ∀ s ∈ ss, s.CodeIn Γ code
  | [], _, _, _, _ => List.forall_mem_nil _
  | s :: rest, _, _, _, h => by
      obtain ⟨first, names₁, restCode, hs, hrest, rfl⟩ := Stmt.lowerAll_cons_eq_ok h
      rw [List.forall_mem_cons]
      refine ⟨Stmt.codeIn_of_run hs (List.prefix_append _ _).isInfix, fun t ht => ?_⟩
      exact (Stmt.codeIn_of_lowerAll rest hrest t ht).mono (List.suffix_append _ _).isInfix

theorem Stmt.codeIn_of_child {t : Stmt} {names names' : Names} {code : Code}
    (h : (t.lower Γ).run names = .ok (code, names')) : ∀ c ∈ t.children, c.CodeIn Γ code := by
  cases t with
  | block node body =>
      rw [Stmt.lower] at h
      exact Stmt.codeIn_of_lowerAll body h
  | ifElse node cond thenBranch elseBranch =>
      obtain ⟨condCode, condValue, names₁, thenCode, names₂, elseCode, _, hthen, helse, rfl⟩ :=
        Stmt.lower_ifElse_eq_ok h
      rw [Stmt.children, List.forall_mem_cons, List.forall_mem_singleton]
      exact ⟨Stmt.codeIn_of_run hthen (Code.infix_choice_left.trans (List.suffix_append _ _).isInfix),
        Stmt.codeIn_of_run helse (Code.infix_choice_right.trans (List.suffix_append _ _).isInfix)⟩
  | loop node cond body =>
      obtain ⟨condCode, condValue, names₁, bodyCode, _, hbody, rfl⟩ := Stmt.lower_loop_eq_ok h
      rw [Stmt.children, List.forall_mem_singleton]
      exact Stmt.codeIn_of_run hbody Code.infix_cycle_body
  | _ => exact List.forall_mem_nil _

theorem Stmt.CodeIn.inside {s t : Stmt} (hs : s.Inside t) (ht : t.CodeIn Γ C) : s.CodeIn Γ C := by
  induction hs with
  | self => exact ht
  | child hc _ ih =>
      obtain ⟨names, code, names', hrun, hcode⟩ := ht
      exact ih ((Stmt.codeIn_of_child hrun _ hc).mono hcode)

mutual

/-- The expressions that stand in a statement have their code in that of the statement. -/
theorem Stmt.codeIn_exprs : ∀ (s : Stmt) {names names' : Names} {code : Code},
    (s.lower Γ).run names = .ok (code, names') → ∀ e ∈ s.exprs, e.CodeIn Γ code
  | .block node body, _, _, _, h => by
      rw [Stmt.lower] at h
      rw [Stmt.exprs]
      exact Stmt.codeIn_exprsAll body h
  | .ifElse node cond thenBranch elseBranch, _, _, _, h => by
      obtain ⟨condCode, condValue, names₁, thenCode, names₂, elseCode, hcond, hthen, helse, rfl⟩ :=
        Stmt.lower_ifElse_eq_ok h
      rw [Stmt.exprs, List.forall_mem_cons, List.forall_mem_append]
      refine ⟨Expr.codeIn_of_run hcond (List.prefix_append _ _).isInfix, fun e he => ?_, fun e he => ?_⟩
      · exact (thenBranch.codeIn_exprs hthen e he).mono
          (Code.infix_choice_left.trans (List.suffix_append _ _).isInfix)
      · exact (elseBranch.codeIn_exprs helse e he).mono
          (Code.infix_choice_right.trans (List.suffix_append _ _).isInfix)
  | .loop node cond body, _, _, _, h => by
      obtain ⟨condCode, condValue, names₁, bodyCode, hcond, hbody, rfl⟩ := Stmt.lower_loop_eq_ok h
      rw [Stmt.exprs, List.forall_mem_cons]
      refine ⟨Expr.codeIn_of_run hcond Code.infix_cycle_cond, fun e he => ?_⟩
      exact (body.codeIn_exprs hbody e he).mono Code.infix_cycle_body
  | .print node arg, _, _, _, h => by
      obtain ⟨argCode, argValue, harg, rfl⟩ := Stmt.lower_print_eq_ok h
      rw [Stmt.exprs, List.forall_mem_singleton]
      exact Expr.codeIn_of_run harg (List.prefix_append _ _).isInfix
  | .assign node target value, _, _, _, h => by
      obtain ⟨valueCode, operand, names₁, ptrCode, ptr, hvalue, _, rfl⟩ := Stmt.lower_assign_eq_ok h
      rw [Stmt.exprs, List.forall_mem_singleton, List.append_assoc]
      exact Expr.codeIn_of_run hvalue (List.prefix_append _ _).isInfix
  | .assignElement node target index value, _, _, _, h => by
      obtain ⟨ptrCode, ptr, names₁, indexCode, indexValue, names₂, valueCode, operand, names₃, _, hindex, hvalue, rfl,
        _⟩ := Stmt.lower_assignElement_eq_ok h
      rw [Stmt.exprs, List.forall_mem_cons, List.forall_mem_singleton, List.append_assoc]
      refine ⟨Expr.codeIn_of_run hindex ?_, Expr.codeIn_of_run hvalue (List.infix_append _ _ _)⟩
      rw [List.append_assoc]
      exact List.infix_append _ _ _

theorem Stmt.codeIn_exprsAll : ∀ (ss : List Stmt) {names names' : Names} {code : Code},
    (Stmt.lowerAll Γ ss).run names = .ok (code, names') → ∀ e ∈ Stmt.exprsAll ss, e.CodeIn Γ code
  | [], _, _, _, _ => by
      rw [Stmt.exprsAll]
      exact List.forall_mem_nil _
  | s :: rest, _, _, _, h => by
      obtain ⟨first, names₁, restCode, hs, hrest, rfl⟩ := Stmt.lowerAll_cons_eq_ok h
      rw [Stmt.exprsAll, List.forall_mem_append]
      refine ⟨fun e he => ?_, fun e he => ?_⟩
      · exact (s.codeIn_exprs hs e he).mono (List.prefix_append _ _).isInfix
      · exact (Stmt.codeIn_exprsAll rest hrest e he).mono (List.suffix_append _ _).isInfix

end

theorem Expr.nextTemp_le (e : Expr) {names names' : Names} {code : Code} {value : Value}
    (h : (e.lower Γ).run names = .ok ((code, value), names')) : names.nextTemp ≤ names'.nextTemp := by
  obtain ⟨_, hregion, _⟩ := e.emits_lower (Context.addresses_true Γ _) [] (List.Subset.refl _) h trivial
  exact hregion.nextTemp_le

/-- The value of an expression is no intermediate value that comes later. -/
theorem Expr.before_of_lower {e : Expr} {names names' : Names} {code : Code} {value : Value}
    (h : (e.lower Γ).run names = .ok ((code, value), names')) : value.operand.Before names'.nextTemp := by
  cases e with
  | binary node op left right =>
      by_cases hop : op = .and
      · subst hop
        obtain ⟨_, _, _, _, _, names₂, _, _, _, rfl, rfl⟩ := Expr.lower_and_eq_ok h
        exact Operand.before_temp (Nat.lt_succ_self _)
      · obtain ⟨_, _, _, _, _, names₂, _, _, _, rfl, rfl⟩ := Expr.lower_binary_eq_ok hop h
        exact Operand.before_temp (Nat.lt_succ_self _)
  | element node array index =>
      obtain ⟨_, _, _, _, _, names₂, _, _, _, rfl, rfl⟩ := Expr.lower_element_eq_ok h
      exact Operand.before_temp (Nat.lt_succ_self _)
  | length node array =>
      obtain ⟨_, _, _, _, _, rfl, rfl⟩ := Expr.lower_length_eq_ok h
      exact Operand.before_temp (Nat.lt_succ_self _)
  | call node owner method args =>
      obtain ⟨_, _, _, _, _, _, _, _, _, _, _, _, rfl, rfl⟩ := Expr.lower_call_eq_ok h
      exact Operand.before_temp (Nat.lt_succ_self _)
  | int node n =>
      rw [Expr.lower] at h
      cases run_pure_eq_ok.mp h
      exact Operand.before_const _ _
  | bool node b =>
      rw [Expr.lower] at h
      cases run_pure_eq_ok.mp h
      exact Operand.before_const _ _
  | var node name =>
      obtain ⟨_, _, _, _, _, rfl, rfl⟩ := Expr.lower_var_eq_ok h
      exact Operand.before_temp (Nat.lt_succ_self _)
  | this node =>
      obtain ⟨C, _, _, rfl, rfl⟩ := Expr.lower_this_eq_ok h
      intro t ht
      cases ht
  | newArray node size =>
      obtain ⟨_, _, _, _, _, rfl, rfl⟩ := Expr.lower_newArray_eq_ok h
      exact Operand.before_temp (Nat.lt_succ_self _)
  | newObject node className =>
      rw [Expr.lower] at h
      obtain ⟨layout, _, _, rfl, rfl⟩ := allocObject_eq_ok h
      exact Operand.before_temp (Nat.lt_add_of_pos_right (by decide))
  | not node operand =>
      obtain ⟨_, _, _, _, _, rfl, rfl⟩ := Expr.lower_not_eq_ok h
      exact Operand.before_temp (Nat.lt_succ_self _)

end

/-- The function of a routine. -/
def Program.lowerRoutine (p : Program) (a : Analysis) : Routine → Except LoweringFault IrFunction
  | .main => p.main.lower a
  | .method c m => m.lower a c.name

section
variable {p : Program} {a : Analysis} {M : IrModule} {f : IrFunction} {routine : Routine}

theorem Program.exists_lowerRoutine (h : p.lower a = .ok M) (hroutine : p.Has routine) :
    ∃ f ∈ M.functions, p.lowerRoutine a routine = .ok f := by
  cases routine with
  | main =>
      obtain ⟨main, hmain, h⟩ := bind_eq_ok.mp h
      obtain ⟨methods, _, h⟩ := bind_eq_ok.mp h
      obtain rfl := pure_eq_ok.mp h
      exact ⟨main, List.mem_cons_self, hmain⟩
  | method c m => exact Program.exists_function h hroutine.1 hroutine.2

theorem Program.labels_nodup_of_lowerRoutine (h : p.lowerRoutine a routine = .ok f) : f.code.labels.Nodup := by
  cases routine with
  | main => exact (MainClass.controlFlow h).labels.of_map _
  | method c m => exact (MethodDecl.controlFlow h).labels.of_map _

theorem Program.codeIn_of_stmtsOf (h : p.lowerRoutine a routine = .ok f) :
    ∀ t ∈ p.stmtsOf routine, t.CodeIn ⟨a, routine.className?⟩ f.code := by
  cases routine with
  | main =>
      obtain ⟨code, names, hbody, rfl⟩ := MainClass.lower_eq_ok h
      rw [Program.stmtsOf, List.forall_mem_singleton]
      exact Stmt.codeIn_of_run hbody (List.prefix_append _ _).isInfix
  | method c m =>
      obtain ⟨formalsCode, names₁, localsCode, names₂, bodyCode, names₃, resultCode, result, names₄, _, _, hbody, _,
        rfl⟩ := MethodDecl.lower_eq_ok h
      intro t ht
      refine (Stmt.codeIn_of_lowerAll m.body hbody t ht).mono ?_
      rw [List.append_assoc]
      exact List.infix_append _ _ _

theorem Program.codeIn_of_exprsOf (h : p.lowerRoutine a routine = .ok f) :
    ∀ d ∈ p.exprsOf routine, d.CodeIn ⟨a, routine.className?⟩ f.code := by
  cases routine with
  | main =>
      obtain ⟨code, names, hbody, rfl⟩ := MainClass.lower_eq_ok h
      intro d hd
      exact (p.main.body.codeIn_exprs hbody d hd).mono (List.prefix_append _ _).isInfix
  | method c m =>
      obtain ⟨formalsCode, names₁, localsCode, names₂, bodyCode, names₃, resultCode, result, names₄, _, _, hbody,
        hresult, rfl⟩ := MethodDecl.lower_eq_ok h
      rw [Program.exprsOf, MethodDecl.exprs, List.forall_mem_cons]
      refine ⟨Expr.codeIn_of_run hresult (List.infix_append _ _ _), fun d hd => ?_⟩
      refine (Stmt.codeIn_exprsAll m.body hbody d hd).mono ?_
      rw [List.append_assoc]
      exact List.infix_append _ _ _

end

section
variable {Γ : Context} {ids : List NodeId}

/-- In a call with a type there are as many arguments as parameters. -/
theorem Expr.Typed.not_surplus (hΓ : Γ.Provides ids) {d c : Expr} (hd : d.Typed Γ) (hids : nodeIds d.visits ⊆ ids) :
    ¬ d.Surplus Γ c := by
  rintro ⟨node, owner, method, args, names, code, value, names', slot, signature, rfl, howner, hdispatch, hc⟩
  obtain ⟨assigned, ty, hty⟩ := hd
  obtain ⟨C, declared, hownerTy, hmethod, hcount, _, _⟩ := Expr.rule_of_typeOf hty
  rw [Expr.visits, nodeIds_cons_of_some rfl, nodeIds_append, List.cons_subset, List.append_subset] at hids
  obtain ⟨_, _, howner', hvalue⟩ := owner.succeeds_lower hΓ hids.2.1 hownerTy names
  cases howner.symm.trans howner'
  rw [hvalue] at hdispatch
  obtain ⟨_, _, hdispatch', hsignature⟩ := succeeds_dispatch hΓ hmethod names'
  cases hdispatch.symm.trans hdispatch'
  obtain rfl : signature = declared := hsignature
  rw [hcount, List.drop_length] at hc
  cases hc

theorem Expr.Typed.not_dropped (hΓ : Γ.Provides ids) {d e : Expr} (hd : d.Typed Γ) (hids : nodeIds d.visits ⊆ ids) :
    ¬ e.Dropped Γ d := by
  rintro ⟨call, c, hcall, hsurplus, _⟩
  have hsub : nodeIds call.visits ⊆ ids := List.Subset.trans (nodeIds_subset hcall.visits_subset) hids
  exact (hd.inside hcall).not_surplus hΓ hsub hsurplus

end

/-- In a checked program no expression is dropped. -/
theorem Program.not_dropped {p : Program} {a : Analysis} (hids : (nodeIds p.visits).Nodup)
    (ha : Analysis.ofProgram p = .ok a) (hcheck : p.check a = .ok ()) {routine : Routine} (hroutine : p.Has routine)
    {d : Expr} (hd : d ∈ p.exprsOf routine) (e : Expr) : ¬ e.Dropped ⟨a, routine.className?⟩ d := by
  have h := Analysis.describes ha
  have hnodes := nodeIds_subset_of_expr hd .self
  obtain ⟨_, ⟨_, hmain⟩, hbodies⟩ := Program.check_eq_ok.mp hcheck
  cases routine with
  | main => exact (p.main.body.typed_exprs hmain d hd).not_dropped (h.provides_main hcheck hids) hnodes
  | method c m =>
      exact (MethodDecl.typed_exprs (hbodies c hroutine.1 m hroutine.2) d hd).not_dropped
        (h.provides_method hcheck hids hroutine.1 hroutine.2) hnodes

/-- A program of distinct nodes that passes the checks has an analysis and code. -/
theorem Program.exists_lower_of_checks {p : Program} (hids : (nodeIds p.visits).Nodup)
    (h : ((Analysis.ofProgram p).toOption.bind fun a => (p.check a).toOption) = some ()) :
    ∃ a M, Analysis.ofProgram p = .ok a ∧ p.check a = .ok () ∧ p.lower a = .ok M := by
  obtain ⟨a, ha, hcheck⟩ := Option.bind_eq_some_iff.mp h
  have ha : Analysis.ofProgram p = .ok a := toOption_eq_some.mp ha
  have hcheck : p.check a = .ok () := toOption_eq_some.mp hcheck
  obtain ⟨M, hM⟩ := Program.exists_lower hids ha hcheck
  exact ⟨a, M, ha, hcheck, hM⟩

end Demitasse
