import Demitasse.Proofs.Positions
import Demitasse.Typing.Program

/-! Whom the checks blame. Whatever is wrong with a declaration, a statement or an expression is reported at one of
its own nodes, so what stands behind some byte is blamed behind that byte. -/

namespace Demitasse

variable {ε α : Type} {k : Nat}

/-- If a computation fails, it is about the text from byte `k` on. -/
def FailsFrom (k : Nat) (x : Except (Located ε) α) : Prop :=
  FailsWith (k ≤ ·.span.start) x

section
variable {Γ : Context} {assigned : List String} {node : Node}

theorem Forest.checkType_failsFrom (F : Forest) (ty : Ty) {span : Span} (h : k ≤ span.start) :
    FailsFrom k (F.checkType ty span) := by
  cases ty with
  | object C => exact .ite (.pure ()) (.error h)
  | _ => exact .pure ()

namespace Context

theorem fits_failsFrom (role : Role) (expected actual : Ty) {span : Span} (h : k ≤ span.start) :
    FailsFrom k (Γ.fits role expected span actual) :=
  .ite (.pure ()) (.error h)

theorem resolve_failsFrom (h : k ≤ node.span.start) (name : String) : FailsFrom k (Γ.resolve node name) := by
  rw [resolve]
  split
  · exact .pure _
  · exact .error h

theorem readVariable_failsFrom (h : k ≤ node.span.start) (name : String) :
    FailsFrom k (Γ.readVariable assigned node name) := by
  refine .bind (resolve_failsFrom h name) fun b => ?_
  exact FailsWith.passing h (.pure _)

theorem callee_failsFrom (h : k ≤ node.span.start) {ownerSpan : Span} (howner : k ≤ ownerSpan.start) (owner : Ty)
    (method : String) (count : Nat) : FailsFrom k (Γ.callee node ownerSpan owner method count) := by
  rw [callee]
  split
  · exact .error howner
  · split
    · exact .error h
    · exact .ite (.pure _) (.error h)

end Context

mutual

/-- An expression without a type has a node that is to blame. -/
theorem Expr.typeOf_failsFrom : ∀ e : Expr, Later k e.visits → FailsFrom k (e.typeOf Γ assigned)
  | .binary node op left right, h => by
      rw [Expr.visits] at h
      rw [typeOf]
      refine .bind (left.typeOf_failsFrom h.tail.left) fun _ => ?_
      refine .bind (Context.fits_failsFrom _ _ _ h.tail.left.span) fun _ => ?_
      refine .bind (right.typeOf_failsFrom h.tail.right) fun _ => ?_
      exact .bind (Context.fits_failsFrom _ _ _ h.tail.right.span) fun _ => .pure _
  | .element node array index, h => by
      rw [Expr.visits] at h
      rw [typeOf]
      refine .bind (array.typeOf_failsFrom h.tail.left) fun _ => ?_
      refine .bind (Context.fits_failsFrom _ _ _ h.tail.left.span) fun _ => ?_
      refine .bind (index.typeOf_failsFrom h.tail.right) fun _ => ?_
      exact .bind (Context.fits_failsFrom _ _ _ h.tail.right.span) fun _ => .pure _
  | .length node array, h => by
      rw [Expr.visits] at h
      rw [typeOf]
      refine .bind (array.typeOf_failsFrom h.tail) fun _ => ?_
      exact .bind (Context.fits_failsFrom _ _ _ h.tail.span) fun _ => .pure _
  | .call node owner method args, h => by
      rw [Expr.visits] at h
      rw [typeOf]
      refine .bind (owner.typeOf_failsFrom h.tail.left) fun _ => ?_
      refine .bind (Context.callee_failsFrom (h.head rfl) h.tail.left.span _ _ _) fun _ => ?_
      exact .bind (Expr.checkArgs_failsFrom args _ h.tail.right) fun _ => .pure _
  | .int _ _, _ => .pure _
  | .bool _ _, _ => .pure _
  | .var node name, h => by
      rw [typeOf]
      exact Context.readVariable_failsFrom (h.head rfl) name
  | .this node, h => by
      rw [typeOf]
      split
      · exact .pure _
      · exact .error (h.head rfl)
  | .newArray node size, h => by
      rw [Expr.visits] at h
      rw [typeOf]
      refine .bind (size.typeOf_failsFrom h.tail) fun _ => ?_
      exact .bind (Context.fits_failsFrom _ _ _ h.tail.span) fun _ => .pure _
  | .newObject node className, h => by
      rw [typeOf]
      exact .bind (Forest.checkType_failsFrom _ _ (h.head rfl)) fun _ => .pure _
  | .not node operand, h => by
      rw [Expr.visits] at h
      rw [typeOf]
      refine .bind (operand.typeOf_failsFrom h.tail) fun _ => ?_
      exact .bind (Context.fits_failsFrom _ _ _ h.tail.span) fun _ => .pure _

theorem Expr.checkArgs_failsFrom : ∀ (args : List Expr) (formals : List Ty), Later k (Expr.visitsAll args) →
    FailsFrom k (Expr.checkArgs Γ assigned args formals)
  | [], _, _ => by
      rw [checkArgs]
      · exact .pure _
      · simp
  | _ :: _, [], _ => by
      rw [checkArgs]
      · exact .pure _
      · simp
  | arg :: args, formal :: formals, h => by
      rw [Expr.visitsAll] at h
      rw [checkArgs]
      refine .bind (arg.typeOf_failsFrom h.left) fun _ => ?_
      refine .bind (Context.fits_failsFrom _ _ _ h.left.span) fun _ => ?_
      exact Expr.checkArgs_failsFrom args formals h.right

end

theorem Expr.check_failsFrom {e : Expr} (h : Later k e.visits) (role : Role) (expected : Ty) :
    FailsFrom k (e.check Γ assigned role expected) := by
  rw [check]
  exact .bind (e.typeOf_failsFrom h) fun _ => Context.fits_failsFrom _ _ _ h.span

mutual

/-- A statement that does not pass has a node that is to blame. -/
theorem Stmt.check_failsFrom : ∀ (s : Stmt) {assigned : List String}, Later k s.visits →
    FailsFrom k (s.check Γ assigned)
  | .block node body, _, h => by
      rw [Stmt.visits] at h
      rw [check]
      exact Stmt.checkAll_failsFrom body h.tail
  | .ifElse node cond thenBranch elseBranch, _, h => by
      rw [Stmt.visits] at h
      rw [check]
      refine .bind (Expr.check_failsFrom h.tail.left.left _ _) fun _ => ?_
      refine .bind (thenBranch.check_failsFrom h.tail.left.right) fun _ => ?_
      exact .bind (elseBranch.check_failsFrom h.tail.right) fun _ => .pure _
  | .loop node cond body, _, h => by
      rw [Stmt.visits] at h
      rw [check]
      refine .bind (Expr.check_failsFrom h.tail.left _ _) fun _ => ?_
      exact .bind (body.check_failsFrom h.tail.right) fun _ => .pure _
  | .print node arg, _, h => by
      rw [Stmt.visits] at h
      rw [check]
      exact .bind (Expr.check_failsFrom h.tail _ _) fun _ => .pure _
  | .assign node target value, _, h => by
      rw [Stmt.visits] at h
      rw [check]
      refine .bind (value.typeOf_failsFrom h.tail) fun _ => ?_
      refine .bind (Context.resolve_failsFrom (h.head rfl) _) fun _ => ?_
      exact .bind (Context.fits_failsFrom _ _ _ h.tail.span) fun _ => .pure _
  | .assignElement node target index value, _, h => by
      rw [Stmt.visits] at h
      rw [check]
      refine .bind (Context.readVariable_failsFrom (h.head rfl) _) fun _ => ?_
      refine FailsWith.passing (h.head rfl) ?_
      refine .bind (Expr.check_failsFrom h.tail.left _ _) fun _ => ?_
      exact .bind (Expr.check_failsFrom h.tail.right _ _) fun _ => .pure _

theorem Stmt.checkAll_failsFrom : ∀ (ss : List Stmt) {assigned : List String}, Later k (Stmt.visitsAll ss) →
    FailsFrom k (Stmt.checkAll Γ assigned ss)
  | [], _, _ => by
      rw [checkAll]
      exact .pure _
  | s :: rest, _, h => by
      rw [Stmt.visitsAll] at h
      rw [checkAll]
      exact .bind (s.check_failsFrom h.left) fun _ => Stmt.checkAll_failsFrom rest h.right

end

end

section
variable {a : Analysis} {c : ClassDecl} {m : MethodDecl}

theorem checkBindings_failsFrom (F : Forest) (repeated : String → TypingFault) :
    ∀ (vs : List VarDecl) {seen : List String}, (∀ v ∈ vs, k ≤ v.node.span.start) → FailsFrom k (checkBindings F repeated seen vs)
  | [], _, _ => .pure _
  | v :: vs, _, h => by
      obtain ⟨hv, hvs⟩ := List.forall_mem_cons.mp h
      rw [checkBindings]
      refine .bind (F.checkType_failsFrom _ hv) fun _ => ?_
      exact FailsWith.passing hv (checkBindings_failsFrom F repeated vs hvs)

theorem ClassDecl.checkFields_failsFrom (F : Forest) (c : ClassDecl) (inherited : List String) :
    ∀ (fs : List VarDecl) {seen : List String}, (∀ f ∈ fs, k ≤ f.node.span.start) →
      FailsFrom k (c.checkFields F inherited seen fs)
  | [], _, _ => .pure _
  | f :: fs, _, h => by
      obtain ⟨hf, hfs⟩ := List.forall_mem_cons.mp h
      rw [checkFields]
      refine .bind (F.checkType_failsFrom _ hf) fun _ => ?_
      exact FailsWith.passing hf (FailsWith.passing hf (checkFields_failsFrom F c inherited fs hfs))

/-- A method is to blame for what is wrong with its declaration, and so are its variables. -/
theorem MethodDecl.checkDecl_failsFrom (h : Later k m.visits) : FailsFrom k (m.checkDecl a c) := by
  have hnode : k ≤ m.node.span.start := h.head rfl
  rw [MethodDecl.visits] at h
  have hformals : ∀ v ∈ m.formals, k ≤ v.node.span.start := fun v hv =>
    (h.tail.tail.left.left.left.of_mem_flatMap hv).head rfl
  have hlocals : ∀ v ∈ m.locals, k ≤ v.node.span.start := fun v hv =>
    (h.tail.tail.left.left.right.of_mem_flatMap hv).head rfl
  refine .bind (Forest.checkType_failsFrom _ _ hnode) fun _ => ?_
  refine .bind (checkBindings_failsFrom _ _ _ hformals) fun _ => ?_
  refine .bind (checkBindings_failsFrom _ _ _ hlocals) fun _ => ?_
  rw [checkOverride]
  split
  · exact .pure _
  · exact FailsWith.passing hnode (.ite (.error hnode) (.pure _))

theorem MethodDecl.checkBody_failsFrom {C : String} (h : Later k m.visits) : FailsFrom k (m.checkBody a C) := by
  rw [MethodDecl.visits] at h
  refine .bind (Stmt.checkAll_failsFrom m.body h.tail.tail.left.right) fun _ => ?_
  exact Expr.check_failsFrom h.tail.tail.right _ _

theorem ClassDecl.checkMethods_failsFrom (a : Analysis) (c : ClassDecl) : ∀ (ms : List MethodDecl) {seen : List String},
    (∀ m ∈ ms, Later k m.visits) → FailsFrom k (c.checkMethods a seen ms)
  | [], _, _ => .pure _
  | m :: ms, _, h => by
      obtain ⟨hm, hms⟩ := List.forall_mem_cons.mp h
      rw [checkMethods]
      refine FailsWith.passing (hm.head rfl) ?_
      exact .bind (MethodDecl.checkDecl_failsFrom hm) fun _ => checkMethods_failsFrom a c ms hms

theorem ClassDecl.later_method (h : Later k c.visits) (hm : m ∈ c.methods) : Later k m.visits := by
  rw [ClassDecl.visits] at h
  exact h.tail.right.of_mem_flatMap hm

theorem ClassDecl.checkDecl_failsFrom (h : Later k c.visits) : FailsFrom k (c.checkDecl a) := by
  have hfields : ∀ f ∈ c.fields, k ≤ f.node.span.start := by
    intro f hf
    rw [ClassDecl.visits] at h
    exact (h.tail.left.of_mem_flatMap hf).head rfl
  refine .bind (c.checkFields_failsFrom _ _ _ hfields) fun _ => ?_
  exact c.checkMethods_failsFrom a _ fun m hm => c.later_method h hm

end

namespace Forest

theorem checkNames_failsFrom (mainName : String) : ∀ (cs : List ClassDecl) {seen : List String},
    (∀ c ∈ cs, k ≤ c.node.span.start) → FailsFrom k (checkNames mainName seen cs)
  | [], _, _ => .pure _
  | c :: cs, _, h => by
      obtain ⟨hc, hcs⟩ := List.forall_mem_cons.mp h
      rw [checkNames]
      exact .ite (.error hc) (.ite (.error hc) (checkNames_failsFrom mainName cs hcs))

theorem checkSuper_failsFrom (declared earlier : List String) {c : ClassDecl} (h : k ≤ c.node.span.start) :
    FailsFrom k (checkSuper declared earlier c) := by
  rw [checkSuper]
  split
  · exact .pure _
  · exact .ite (.error h) (.ite (.error h) (.ite (.error h) (.pure _)))

theorem checkSupers_failsFrom (declared : List String) : ∀ (cs : List ClassDecl) {earlier : List String},
    (∀ c ∈ cs, k ≤ c.node.span.start) → FailsFrom k (checkSupers declared earlier cs)
  | [], _, _ => .pure _
  | c :: cs, _, h => by
      obtain ⟨hc, hcs⟩ := List.forall_mem_cons.mp h
      exact .bind (checkSuper_failsFrom _ _ hc) fun _ => checkSupers_failsFrom declared cs hcs

end Forest

end Demitasse
