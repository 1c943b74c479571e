import Demitasse.Proofs.Checking

/-!
Types of expressions. What the checks ask of an expression and of a statement is read off once for each form,
and it is asked of everything inside: each expression of a checked program has been given a type.
-/

namespace Demitasse

section
variable {Γ : Context} {assigned after : List String} {node : Node} {ty expected : Ty}

/-- An expression has a type that may stand where `expected` is wanted. -/
def Expr.Fits (Γ : Context) (assigned : List String) (e : Expr) (expected : Ty) : Prop :=
  ∃ ty, e.typeOf Γ assigned = .ok ty ∧ Γ.analysis.forest.assignable ty expected = true

theorem Context.fits_eq_ok {role : Role} {span : Span} :
    Γ.fits role expected span ty = .ok () ↔ Γ.analysis.forest.assignable ty expected = true := by
  rw [fits]
  split <;> simp_all

theorem Expr.check_eq_ok {role : Role} {e : Expr} :
    e.check Γ assigned role expected = .ok () ↔ e.Fits Γ assigned expected := by
  rw [check, bind_eq_ok]
  simp only [Context.fits_eq_ok, Fits]

/-- What the checks have found out about an expression that they give a type to. -/
def Expr.Rule (Γ : Context) (assigned : List String) : Expr → Ty → Prop
  | .binary _ op left right, ty =>
    left.Fits Γ assigned op.operandTy ∧ right.Fits Γ assigned op.operandTy ∧ ty = op.resultTy
  | .element _ array index, ty => array.Fits Γ assigned .intArray ∧ index.Fits Γ assigned .int ∧ ty = .int
  | .length _ array, ty => array.Fits Γ assigned .intArray ∧ ty = .int
  | .call _ owner method args, ty =>
    ∃ C signature, owner.typeOf Γ assigned = .ok (.object C) ∧
      Γ.analysis.scopes.classMethod? C method = some signature ∧ signature.formalTypes.length = args.length ∧
      Expr.checkArgs Γ assigned args signature.formalTypes = .ok () ∧ ty = signature.ret
  | .int _ _, ty => ty = .int
  | .bool _ _, ty => ty = .boolean
  | .var node name, ty => ∃ b, Γ.analysis.scopes.resolve? node.id name = some b ∧ ty = b.ty
  | .this _, ty => ∃ C, Γ.className = some C ∧ ty = .object C
  | .newArray _ size, ty => size.Fits Γ assigned .int ∧ ty = .intArray
  | .newObject _ className, ty => Γ.analysis.forest.contains className = true ∧ ty = .object className
  | .not _ operand, ty => operand.Fits Γ assigned .boolean ∧ ty = .boolean

theorem Expr.rule_of_typeOf {e : Expr} (h : e.typeOf Γ assigned = .ok ty) : e.Rule Γ assigned ty := by
  cases e with
  | binary node op left right =>
      rw [typeOf] at h
      obtain ⟨leftTy, hleft, h⟩ := bind_eq_ok.mp h
      obtain ⟨_, hleftFits, h⟩ := bind_eq_ok.mp h
      obtain ⟨rightTy, hright, h⟩ := bind_eq_ok.mp h
      obtain ⟨_, hrightFits, h⟩ := bind_eq_ok.mp h
      exact ⟨⟨leftTy, hleft, Context.fits_eq_ok.mp hleftFits⟩, ⟨rightTy, hright, Context.fits_eq_ok.mp hrightFits⟩,
        (pure_eq_ok.mp h).symm⟩
  | element node array index =>
      rw [typeOf] at h
      obtain ⟨arrayTy, harray, h⟩ := bind_eq_ok.mp h
      obtain ⟨_, harrayFits, h⟩ := bind_eq_ok.mp h
      obtain ⟨indexTy, hindex, h⟩ := bind_eq_ok.mp h
      obtain ⟨_, hindexFits, h⟩ := bind_eq_ok.mp h
      exact ⟨⟨arrayTy, harray, Context.fits_eq_ok.mp harrayFits⟩,
        ⟨indexTy, hindex, Context.fits_eq_ok.mp hindexFits⟩, (pure_eq_ok.mp h).symm⟩
  | length node array =>
      rw [typeOf] at h
      obtain ⟨arrayTy, harray, h⟩ := bind_eq_ok.mp h
      obtain ⟨_, hfits, h⟩ := bind_eq_ok.mp h
      exact ⟨⟨arrayTy, harray, Context.fits_eq_ok.mp hfits⟩, (pure_eq_ok.mp h).symm⟩
  | call node owner method args =>
      rw [typeOf] at h
      obtain ⟨ownerTy, howner, h⟩ := bind_eq_ok.mp h
      obtain ⟨signature, hcallee, h⟩ := bind_eq_ok.mp h
      obtain ⟨_, hargs, hret⟩ := bind_eq_ok.mp h
      obtain ⟨C, rfl, hmethod, hcount⟩ := Context.callee_eq_ok.mp hcallee
      refine ⟨C, signature, howner, hmethod, ?_, hargs, (pure_eq_ok.mp hret).symm⟩
      rw [MethodSig.formalTypes, List.length_map, hcount]
  | int node value =>
      rw [typeOf] at h
      exact (pure_eq_ok.mp h).symm
  | bool node value =>
      rw [typeOf] at h
      exact (pure_eq_ok.mp h).symm
  | var node name =>
      rw [typeOf] at h
      obtain ⟨b, hb, _, hty⟩ := Context.readVariable_eq_ok.mp h
      exact ⟨b, hb, hty.symm⟩
  | this node =>
      rw [typeOf] at h
      cases hC : Γ.className with
      | none =>
          rw [hC] at h
          cases h
      | some C =>
          rw [hC] at h
          exact ⟨C, hC, (pure_eq_ok.mp h).symm⟩
  | newArray node size =>
      rw [typeOf] at h
      obtain ⟨sizeTy, hsize, h⟩ := bind_eq_ok.mp h
      obtain ⟨_, hfits, h⟩ := bind_eq_ok.mp h
      exact ⟨⟨sizeTy, hsize, Context.fits_eq_ok.mp hfits⟩, (pure_eq_ok.mp h).symm⟩
  | newObject node className =>
      rw [typeOf] at h
      obtain ⟨_, hclass, h⟩ := bind_eq_ok.mp h
      exact ⟨Forest.checkType_eq_ok.mp hclass className rfl, (pure_eq_ok.mp h).symm⟩
  | not node operand =>
      rw [typeOf] at h
      obtain ⟨operandTy, hoperand, h⟩ := bind_eq_ok.mp h
      obtain ⟨_, hfits, h⟩ := bind_eq_ok.mp h
      exact ⟨⟨operandTy, hoperand, Context.fits_eq_ok.mp hfits⟩, (pure_eq_ok.mp h).symm⟩

theorem Expr.checkArgs_cons_eq_ok {arg : Expr} {args : List Expr} {formal : Ty} {formals : List Ty}
    (h : Expr.checkArgs Γ assigned (arg :: args) (formal :: formals) = .ok ()) :
    arg.Fits Γ assigned formal ∧ Expr.checkArgs Γ assigned args formals = .ok () := by
  rw [checkArgs] at h
  obtain ⟨argTy, harg, h⟩ := bind_eq_ok.mp h
  obtain ⟨_, hfits, h⟩ := bind_eq_ok.mp h
  exact ⟨⟨argTy, harg, Context.fits_eq_ok.mp hfits⟩, h⟩

/-- What the checks have found out about a statement that passes. -/
def Stmt.Rule (Γ : Context) (assigned : List String) : Stmt → Prop
  | .block _ body => ∃ after, Stmt.checkAll Γ assigned body = .ok after
  | .ifElse _ cond thenBranch elseBranch =>
    cond.Fits Γ assigned .boolean ∧ (∃ after, thenBranch.check Γ assigned = .ok after) ∧
      ∃ after, elseBranch.check Γ assigned = .ok after
  | .loop _ cond body => cond.Fits Γ assigned .boolean ∧ ∃ after, body.check Γ assigned = .ok after
  | .print _ arg => arg.Fits Γ assigned .int
  | .assign node target value =>
    ∃ b, Γ.analysis.scopes.resolve? node.id target = some b ∧ value.Fits Γ assigned b.ty
  | .assignElement node target index value =>
    (∃ b, Γ.analysis.scopes.resolve? node.id target = some b ∧ b.ty = .intArray) ∧
      index.Fits Γ assigned .int ∧ value.Fits Γ assigned .int

theorem Stmt.rule_of_check {s : Stmt} (h : s.check Γ assigned = .ok after) : s.Rule Γ assigned := by
  cases s with
  | block node body =>
      rw [check] at h
      exact ⟨after, h⟩
  | ifElse node cond thenBranch elseBranch =>
      rw [check] at h
      obtain ⟨_, hcond, h⟩ := bind_eq_ok.mp h
      obtain ⟨afterThen, hthen, h⟩ := bind_eq_ok.mp h
      obtain ⟨afterElse, helse, _⟩ := bind_eq_ok.mp h
      exact ⟨Expr.check_eq_ok.mp hcond, ⟨afterThen, hthen⟩, afterElse, helse⟩
  | loop node cond body =>
      rw [check] at h
      obtain ⟨_, hcond, h⟩ := bind_eq_ok.mp h
      obtain ⟨afterBody, hbody, _⟩ := bind_eq_ok.mp h
      exact ⟨Expr.check_eq_ok.mp hcond, afterBody, hbody⟩
  | print node arg =>
      rw [check] at h
      obtain ⟨_, harg, _⟩ := bind_eq_ok.mp h
      exact Expr.check_eq_ok.mp harg
  | assign node target value =>
      rw [check] at h
      obtain ⟨valueTy, hvalue, h⟩ := bind_eq_ok.mp h
      obtain ⟨b, hb, h⟩ := bind_eq_ok.mp h
      obtain ⟨_, hfits, _⟩ := bind_eq_ok.mp h
      exact ⟨b, Context.resolve_eq_ok.mp hb, valueTy, hvalue, Context.fits_eq_ok.mp hfits⟩
  | assignElement node target index value =>
      rw [check] at h
      obtain ⟨targetTy, htarget, h⟩ := bind_eq_ok.mp h
      obtain ⟨harray, h⟩ := ite_throw_eq_ok.mp h
      obtain ⟨_, hindex, h⟩ := bind_eq_ok.mp h
      obtain ⟨_, hvalue, _⟩ := bind_eq_ok.mp h
      obtain ⟨b, hb, _, rfl⟩ := Context.readVariable_eq_ok.mp htarget
      exact ⟨⟨b, hb, Decidable.not_not.mp harray⟩, Expr.check_eq_ok.mp hindex, Expr.check_eq_ok.mp hvalue⟩

theorem Stmt.checkAll_cons_eq_ok {s : Stmt} {rest : List Stmt}
    (h : Stmt.checkAll Γ assigned (s :: rest) = .ok after) :
    ∃ between, s.check Γ assigned = .ok between ∧ Stmt.checkAll Γ between rest = .ok after := by
  rw [checkAll] at h
  exact bind_eq_ok.mp h

theorem MethodDecl.checkBody_eq_ok {a : Analysis} {className : String} {m : MethodDecl} :
    m.checkBody a className = .ok () ↔ ∃ assigned, Stmt.checkAll ⟨a, some className⟩ [] m.body = .ok assigned ∧
      m.result.Fits ⟨a, some className⟩ assigned m.returnType := by
  rw [checkBody, bind_eq_ok]
  simp only [Expr.check_eq_ok]

end

/-- The expressions that an expression is made of. -/
def Expr.children : Expr → List Expr
  | .binary _ _ left right => [left, right]
  | .element _ array index => [array, index]
  | .length _ array => [array]
  | .call _ owner _ args => owner :: args
  | .newArray _ size => [size]
  | .not _ operand => [operand]
  | .int .. | .bool .. | .var .. | .this _ | .newObject .. => []

/-- An expression is another one, or stands inside it. -/
inductive Expr.Inside (e : Expr) : Expr → Prop
  | self : Inside e e
  | child {d c : Expr} (hc : c ∈ d.children) (h : Inside e c) : Inside e d

mutual

/-- The expressions that stand in a statement or in a statement inside it. -/
def Stmt.exprs : Stmt → List Expr
  | .block _ body => Stmt.exprsAll body
  | .ifElse _ cond thenBranch elseBranch => cond :: (thenBranch.exprs ++ elseBranch.exprs)
  | .loop _ cond body => cond :: body.exprs
  | .print _ arg => [arg]
  | .assign _ _ value => [value]
  | .assignElement _ _ index value => [index, value]

/-- The expressions that stand in statements in a row. -/
def Stmt.exprsAll : List Stmt → List Expr
  | [] => []
  | s :: rest => s.exprs ++ Stmt.exprsAll rest

end

/-- The expressions that stand in a method. -/
def MethodDecl.exprs (m : MethodDecl) : List Expr :=
  m.result :: Stmt.exprsAll m.body

/-- An expression has been given a type. -/
def Expr.Typed (Γ : Context) (e : Expr) : Prop :=
  ∃ assigned ty, e.typeOf Γ assigned = .ok ty

section
variable {Γ : Context} {assigned : List String}

theorem Expr.Fits.typed {e : Expr} {expected : Ty} (h : e.Fits Γ assigned expected) : e.Typed Γ := by
  obtain ⟨ty, hty, _⟩ := h
  exact ⟨assigned, ty, hty⟩

theorem Expr.Fits.typeOf {e : Expr} {expected : Ty} (h : e.Fits Γ assigned expected) :
    ∃ ty, e.typeOf Γ assigned = .ok ty := by
  obtain ⟨ty, hty, _⟩ := h
  exact ⟨ty, hty⟩

theorem Expr.typeOf_of_checkArgs : ∀ {args : List Expr} {formals : List Ty}, formals.length = args.length →
    Expr.checkArgs Γ assigned args formals = .ok () → ∀ arg ∈ args, ∃ ty, arg.typeOf Γ assigned = .ok ty
  | [], _, _, _ => List.forall_mem_nil _
  | _ :: _, [], hlen, _ => by cases hlen
  | _ :: _, _ :: _, hlen, h => by
      obtain ⟨harg, hargs⟩ := Expr.checkArgs_cons_eq_ok h
      exact List.forall_mem_cons.mpr ⟨harg.typeOf, Expr.typeOf_of_checkArgs (Nat.succ.inj hlen) hargs⟩

/-- What an expression with a type is made of has types, where the same variables have a value. -/
theorem Expr.typeOf_children {e : Expr} {ty : Ty} (h : e.typeOf Γ assigned = .ok ty) :
    ∀ c ∈ e.children, ∃ ty, c.typeOf Γ assigned = .ok ty := by
  cases e with
  | binary node op left right =>
      obtain ⟨hleft, hright, _⟩ := Expr.rule_of_typeOf h
      simp [Expr.children, hleft.typeOf, hright.typeOf]
  | element node array index =>
      obtain ⟨harray, hindex, _⟩ := Expr.rule_of_typeOf h
      simp [Expr.children, harray.typeOf, hindex.typeOf]
  | length node array =>
      obtain ⟨harray, _⟩ := Expr.rule_of_typeOf h
      simp [Expr.children, harray.typeOf]
  | call node owner method args =>
      obtain ⟨C, signature, howner, _, hcount, hargs, _⟩ := Expr.rule_of_typeOf h
      exact List.forall_mem_cons.mpr ⟨⟨_, howner⟩, Expr.typeOf_of_checkArgs hcount hargs⟩
  | newArray node size =>
      obtain ⟨hsize, _⟩ := Expr.rule_of_typeOf h
      simp [Expr.children, hsize.typeOf]
  | not node operand =>
      obtain ⟨hoperand, _⟩ := Expr.rule_of_typeOf h
      simp [Expr.children, hoperand.typeOf]
  | _ => exact List.forall_mem_nil _

theorem Expr.typeOf_inside {d e : Expr} (he : e.Inside d) :
    ∀ {ty : Ty}, d.typeOf Γ assigned = .ok ty → ∃ ty, e.typeOf Γ assigned = .ok ty := by
  induction he with
  | self => exact fun h => ⟨_, h⟩
  | child hc _ ih =>
      intro ty h
      obtain ⟨_, hchild⟩ := Expr.typeOf_children h _ hc
      exact ih hchild

theorem Expr.Typed.inside {d e : Expr} (h : d.Typed Γ) (he : e.Inside d) : e.Typed Γ := by
  obtain ⟨assigned, _, hd⟩ := h
  exact ⟨assigned, Expr.typeOf_inside he hd⟩

mutual

/-- The expressions of a checked statement have types. -/
theorem Stmt.typed_exprs : ∀ (s : Stmt) {assigned after : List String}, s.check Γ assigned = .ok after →
    ∀ e ∈ s.exprs, e.Typed Γ
  | .block _ body, assigned, after, h => by
      obtain ⟨_, hbody⟩ := Stmt.rule_of_check h
      rw [Stmt.exprs]
      exact Stmt.typed_exprsAll body hbody
  | .ifElse _ _ thenBranch elseBranch, _, _, h => by
      obtain ⟨hcond, ⟨_, hthen⟩, _, helse⟩ := Stmt.rule_of_check h
      rw [Stmt.exprs, List.forall_mem_cons, List.forall_mem_append]
      exact ⟨hcond.typed, thenBranch.typed_exprs hthen, elseBranch.typed_exprs helse⟩
  | .loop _ _ body, _, _, h => by
      obtain ⟨hcond, _, hbody⟩ := Stmt.rule_of_check h
      rw [Stmt.exprs, List.forall_mem_cons]
      exact ⟨hcond.typed, body.typed_exprs hbody⟩
  | .print _ _, _, _, h => by
      have harg := Stmt.rule_of_check h
      rw [Stmt.exprs, List.forall_mem_singleton]
      exact harg.typed
  | .assign _ _ _, _, _, h => by
      obtain ⟨_, _, hvalue⟩ := Stmt.rule_of_check h
      rw [Stmt.exprs, List.forall_mem_singleton]
      exact hvalue.typed
  | .assignElement _ _ _ _, _, _, h => by
      obtain ⟨_, hindex, hvalue⟩ := Stmt.rule_of_check h
      rw [Stmt.exprs, List.forall_mem_cons, List.forall_mem_singleton]
      exact ⟨hindex.typed, hvalue.typed⟩

theorem Stmt.typed_exprsAll : ∀ (ss : List Stmt) {assigned after : List String},
    Stmt.checkAll Γ assigned ss = .ok after → ∀ e ∈ Stmt.exprsAll ss, e.Typed Γ
  | [], _, _, _ => by
      rw [Stmt.exprsAll]
      exact List.forall_mem_nil _
  | s :: rest, _, _, h => by
      obtain ⟨_, hs, hrest⟩ := Stmt.checkAll_cons_eq_ok h
      rw [Stmt.exprsAll, List.forall_mem_append]
      exact ⟨s.typed_exprs hs, Stmt.typed_exprsAll rest hrest⟩

end

theorem MethodDecl.typed_exprs {a : Analysis} {className : String} {m : MethodDecl}
    (h : m.checkBody a className = .ok ()) : ∀ e ∈ m.exprs, e.Typed ⟨a, some className⟩ := by
  obtain ⟨assigned, hbody, hresult⟩ := MethodDecl.checkBody_eq_ok.mp h
  exact List.forall_mem_cons.mpr ⟨hresult.typed, Stmt.typed_exprsAll m.body hbody⟩

end

theorem Expr.visits_subset_visitsAll {args : List Expr} : ∀ arg ∈ args, arg.visits ⊆ Expr.visitsAll args := by
  induction args with
  | nil => exact List.forall_mem_nil _
  | cons first rest ih =>
      rw [Expr.visitsAll, List.forall_mem_cons]
      exact ⟨List.subset_append_left _ _, fun arg harg => List.subset_append_of_subset_right _ (ih arg harg)⟩

theorem Expr.visits_subset_of_child {d : Expr} : ∀ c ∈ d.children, c.visits ⊆ d.visits := by
  have hfirst : ∀ (v : Visit) (l r : List Visit), l ⊆ v :: (l ++ r) := fun v l r =>
    List.subset_cons_of_subset v (List.subset_append_left l r)
  have hsecond : ∀ (v : Visit) (l r : List Visit), r ⊆ v :: (l ++ r) := fun v l r =>
    List.subset_cons_of_subset v (List.subset_append_right l r)
  cases d with
  | binary node op left right => simp [Expr.children, Expr.visits, hfirst, hsecond]
  | element node array index => simp [Expr.children, Expr.visits, hfirst, hsecond]
  | length node array => simp [Expr.children, Expr.visits]
  | call node owner method args =>
      rw [Expr.visits]
      refine List.forall_mem_cons.mpr ⟨hfirst _ _ _, fun arg harg => ?_⟩
      exact List.Subset.trans (Expr.visits_subset_visitsAll arg harg) (hsecond _ _ _)
  | newArray node size => simp [Expr.children, Expr.visits]
  | not node operand => simp [Expr.children, Expr.visits]
  | _ => exact List.forall_mem_nil _

theorem Expr.Inside.visits_subset {d e : Expr} (h : e.Inside d) : e.visits ⊆ d.visits := by
  induction h with
  | self => exact List.Subset.refl _
  | child hc _ ih => exact List.Subset.trans ih (Expr.visits_subset_of_child _ hc)

mutual

theorem Stmt.visits_subset_of_mem_exprs : ∀ (s : Stmt), ∀ e ∈ s.exprs, e.visits ⊆ s.visits
  | .block _ body => by
      rw [Stmt.exprs, Stmt.visits]
      exact fun e he => List.subset_cons_of_subset _ (Stmt.visits_subset_of_mem_exprsAll body e he)
  | .ifElse _ cond thenBranch elseBranch => by
      rw [Stmt.exprs, Stmt.visits, List.forall_mem_cons, List.forall_mem_append, List.append_assoc]
      refine ⟨List.subset_cons_of_subset _ (List.subset_append_left _ _), fun e he => ?_, fun e he => ?_⟩
      · have hthen := thenBranch.visits_subset_of_mem_exprs e he
        exact fun v hv => List.mem_cons_of_mem _ (List.mem_append_right _ (List.mem_append_left _ (hthen hv)))
      · have helse := elseBranch.visits_subset_of_mem_exprs e he
        exact fun v hv => List.mem_cons_of_mem _ (List.mem_append_right _ (List.mem_append_right _ (helse hv)))
  | .loop _ cond body => by
      rw [Stmt.exprs, Stmt.visits, List.forall_mem_cons]
      refine ⟨List.subset_cons_of_subset _ (List.subset_append_left _ _), fun e he => ?_⟩
      have hbody := body.visits_subset_of_mem_exprs e he
      exact fun v hv => List.mem_cons_of_mem _ (List.mem_append_right _ (hbody hv))
  | .print _ _ => by simp [Stmt.exprs, Stmt.visits]
  | .assign _ _ _ => by simp [Stmt.exprs, Stmt.visits]
  | .assignElement _ _ index value => by
      rw [Stmt.exprs, Stmt.visits, List.forall_mem_cons, List.forall_mem_singleton]
      exact ⟨List.subset_cons_of_subset _ (List.subset_append_left _ _),
        List.subset_cons_of_subset _ (List.subset_append_right _ _)⟩

theorem Stmt.visits_subset_of_mem_exprsAll : ∀ (ss : List Stmt), ∀ e ∈ Stmt.exprsAll ss, e.visits ⊆ Stmt.visitsAll ss
  | [] => by
      rw [Stmt.exprsAll]
      exact List.forall_mem_nil _
  | s :: rest => by
      rw [Stmt.exprsAll, Stmt.visitsAll, List.forall_mem_append]
      constructor
      · exact fun e he => List.subset_append_of_subset_left _ (s.visits_subset_of_mem_exprs e he)
      · exact fun e he => List.subset_append_of_subset_right _ (Stmt.visits_subset_of_mem_exprsAll rest e he)

end

theorem nodeIds_subset {v w : List Visit} (h : v ⊆ w) : nodeIds v ⊆ nodeIds w :=
  List.filterMap_subset _ h

/-- The nodes of an expression that stands somewhere in a method are nodes of the method. -/
theorem MethodDecl.nodeIds_of_inside {m : MethodDecl} {d e : Expr} (hd : d ∈ m.exprs) (he : e.Inside d) :
    nodeIds e.visits ⊆ nodeIds m.visits := by
  apply nodeIds_subset
  refine List.Subset.trans he.visits_subset ?_
  rw [MethodDecl.visits]
  rcases List.mem_cons.mp hd with rfl | hd
  · exact fun v hv => List.mem_cons_of_mem _ (List.mem_cons_of_mem _ (List.mem_append_right _ hv))
  · have hbody := Stmt.visits_subset_of_mem_exprsAll m.body d hd
    exact fun v hv => List.mem_cons_of_mem _ (List.mem_cons_of_mem _
      (List.mem_append_left _ (List.mem_append_right _ (hbody hv))))

end Demitasse
