import Demitasse.Proofs.Assignment
import Demitasse.Proofs.Paths
import Demitasse.Proofs.Lowering

/-! Definite initialization. The checks carry along the local variables that have a value; here this set is compared
with the paths through the code. After a statement it holds, beside what it held before, exactly the variables that
are assigned on every path through the statement. So a variable that is read has been assigned on every path that
leads there, and where a read is rejected some path leads there without an assignment. -/

namespace Demitasse

open Computability

namespace Context

/-- At a node, a name stands for a local variable. -/
def IsLocal (Γ : Context) (node : Node) (name : String) : Prop :=
  ∃ b, Γ.analysis.scopes.resolve? node.id name = some b ∧ b.storage = .local

/-- A path assigns the local variable of a name. -/
def Assigns (Γ : Context) (name : String) (t : List Access) : Prop :=
  ∃ node, .write node name ∈ t ∧ Γ.IsLocal node name

/-- Every path assigns the local variable of a name. -/
def AlwaysAssigns (Γ : Context) (name : String) (L : Language Access) : Prop :=
  ∀ t ∈ L, Γ.Assigns name t

variable {Γ : Context} {name : String} {s t : List Access} {L M : Language Access}

@[simp] theorem not_assigns_nil : ¬ Γ.Assigns name [] := by
  rintro ⟨node, hnode, _⟩
  cases hnode

@[simp] theorem assigns_append : Γ.Assigns name (s ++ t) ↔ Γ.Assigns name s ∨ Γ.Assigns name t := by
  simp only [Assigns, List.mem_append, or_and_right, exists_or]

theorem not_assigns_of_reads {e : Expr} (ht : t ∈ e.paths) : ¬ Γ.Assigns name t := by
  rintro ⟨node, hnode, _⟩
  obtain ⟨_, _, hread, _⟩ := e.only_reads t ht _ hnode
  cases hread

/-- What is assigned on every path through two pieces of code is already assigned on every path through one of
them: paths through both can be put together at will. -/
@[simp] theorem alwaysAssigns_mul :
    Γ.AlwaysAssigns name (L * M) ↔ Γ.AlwaysAssigns name L ∨ Γ.AlwaysAssigns name M := by
  constructor
  · intro h
    by_contra hnot
    rw [not_or] at hnot
    simp only [AlwaysAssigns, not_forall] at hnot
    obtain ⟨⟨s, hs, hsfree⟩, t, ht, htfree⟩ := hnot
    rcases assigns_append.mp (h _ (Language.append_mem_mul hs ht)) with h | h
    · exact hsfree h
    · exact htfree h
  · intro h t ht
    obtain ⟨s, hs, u, hu, rfl⟩ := Language.mem_mul.mp ht
    rw [assigns_append]
    exact h.imp (· s hs) (· u hu)

@[simp] theorem alwaysAssigns_add :
    Γ.AlwaysAssigns name (L + M) ↔ Γ.AlwaysAssigns name L ∧ Γ.AlwaysAssigns name M := by
  constructor
  · intro h
    exact ⟨fun t ht => h t ((Language.mem_add ..).mpr (.inl ht)), fun t ht => h t ((Language.mem_add ..).mpr (.inr ht))⟩
  · rintro ⟨hL, hM⟩ t ht
    exact ((Language.mem_add ..).mp ht).elim (hL t) (hM t)

/-- A loop may be left at once. -/
@[simp] theorem not_alwaysAssigns_kstar : ¬ Γ.AlwaysAssigns name L∗ :=
  fun h => not_assigns_nil (h [] (Language.nil_mem_kstar L))

@[simp] theorem not_alwaysAssigns_one : ¬ Γ.AlwaysAssigns name 1 :=
  fun h => not_assigns_nil (h [] Language.nil_mem_one)

@[simp] theorem not_alwaysAssigns_read {node : Node} {x : String} :
    ¬ Γ.AlwaysAssigns name {[.read node x]} := by
  intro h
  obtain ⟨_, hmem, _⟩ := h _ rfl
  simp at hmem

@[simp] theorem alwaysAssigns_write {node : Node} {x : String} :
    Γ.AlwaysAssigns name {[.write node x]} ↔ name = x ∧ Γ.IsLocal node x := by
  constructor
  · intro h
    obtain ⟨_, hmem, hlocal⟩ := h _ rfl
    obtain ⟨rfl, rfl⟩ : _ = node ∧ name = x := by simpa using hmem
    exact ⟨rfl, hlocal⟩
  · rintro ⟨rfl, hlocal⟩ t ht
    obtain rfl : t = [.write node name] := ht
    exact ⟨node, List.mem_singleton_self _, hlocal⟩

@[simp] theorem not_alwaysAssigns_expr (e : Expr) : ¬ Γ.AlwaysAssigns name e.paths := by
  intro h
  obtain ⟨t, ht⟩ := e.exists_path
  exact not_assigns_of_reads ht (h t ht)

end Context

section
variable {Γ : Context} {assigned after : List String} {name : String}

theorem Context.isLocal_iff {node : Node} {b : VarBinding} (h : Γ.analysis.scopes.resolve? node.id name = some b) :
    Γ.IsLocal node name ↔ b.storage = .local := by
  constructor
  · rintro ⟨b', hb', hlocal⟩
    cases h.symm.trans hb'
    exact hlocal
  · exact fun hlocal => ⟨b, h, hlocal⟩

mutual

/-- After a statement those variables have a value that had one before, or that are assigned on every path. -/
theorem Stmt.mem_check_iff : ∀ (s : Stmt) {assigned after : List String}, s.check Γ assigned = .ok after →
    (name ∈ after ↔ name ∈ assigned ∨ Γ.AlwaysAssigns name s.paths)
  | .block _ body, _, _, h => by
      rw [paths]
      exact Stmt.mem_checkAll_iff body (Stmt.effect_of_check h)
  | .ifElse _ cond thenBranch elseBranch, _, _, h => by
      obtain ⟨afterThen, afterElse, hthen, helse, rfl⟩ := Stmt.effect_of_check h
      rw [List.mem_filter, decide_eq_true_iff, thenBranch.mem_check_iff hthen, elseBranch.mem_check_iff helse]
      simp only [paths, Context.alwaysAssigns_mul, Context.not_alwaysAssigns_expr, Context.alwaysAssigns_add, false_or]
      rw [← or_and_left, and_comm]
  | .loop _ cond body, _, _, h => by
      obtain rfl := Stmt.effect_of_check h
      simp
  | .print _ arg, _, _, h => by
      obtain rfl := Stmt.effect_of_check h
      simp
  | .assign node target value, _, _, h => by
      obtain ⟨b, hb, rfl⟩ := Stmt.effect_of_check h
      simp only [paths, Context.alwaysAssigns_mul, Context.not_alwaysAssigns_expr, Context.alwaysAssigns_write,
        false_or]
      by_cases hlocal : b.storage = .local
      · rw [if_pos hlocal, List.mem_insert_iff, or_comm]
        simp [(Context.isLocal_iff hb).mpr hlocal]
      · have hnot : ¬ Γ.IsLocal node target := fun h => hlocal ((Context.isLocal_iff hb).mp h)
        simp [hlocal, hnot]
  | .assignElement node target index value, _, _, h => by
      obtain ⟨_, rfl⟩ := Stmt.effect_of_check h
      simp

theorem Stmt.mem_checkAll_iff : ∀ (ss : List Stmt) {assigned after : List String},
    Stmt.checkAll Γ assigned ss = .ok after →
    (name ∈ after ↔ name ∈ assigned ∨ Γ.AlwaysAssigns name (Stmt.pathsAll ss))
  | [], _, _, h => by
      rw [Stmt.checkAll] at h
      obtain rfl := pure_eq_ok.mp h
      simp
  | s :: rest, _, _, h => by
      obtain ⟨_, hs, hrest⟩ := Stmt.checkAll_cons_eq_ok h
      rw [Stmt.mem_checkAll_iff rest hrest, s.mem_check_iff hs, Stmt.pathsAll, Context.alwaysAssigns_mul, or_assoc]

end

end

/-- On a path, every local variable that is read has a value: it is one of `assigned`, or the path assigns it
before. -/
def Context.Supplied (Γ : Context) (assigned : List String) (t : List Access) : Prop :=
  ∀ before node name after, t = before ++ .read node name :: after → Γ.IsLocal node name →
    name ∈ assigned ∨ Γ.Assigns name before

section
variable {Γ : Context} {assigned more : List String} {s t : List Access}

theorem Context.supplied_nil : Γ.Supplied assigned [] := by
  intro before node name after h
  simp at h

/-- What the first path assigns is there for the second one. -/
theorem Context.Supplied.append (hs : Γ.Supplied assigned s) (ht : Γ.Supplied more t)
    (hmore : ∀ name ∈ more, name ∈ assigned ∨ Γ.Assigns name s) : Γ.Supplied assigned (s ++ t) := by
  intro before node name after h hlocal
  rcases List.append_eq_append_iff.mp h with ⟨tail, rfl, htail⟩ | ⟨tail, rfl, htail⟩
  · rw [Context.assigns_append]
    rcases ht tail node name after htail hlocal with hname | hname
    · exact (hmore name hname).imp_right .inl
    · exact .inr (.inr hname)
  · cases tail with
    | nil =>
        rcases ht [] node name after htail.symm hlocal with hname | hname
        · simpa using hmore name hname
        · exact absurd hname Context.not_assigns_nil
    | cons access tail =>
        obtain ⟨rfl, _⟩ := List.cons_eq_cons.mp htail
        exact hs before node name tail rfl hlocal

theorem Context.Supplied.flatten {words : List (List Access)} (h : ∀ word ∈ words, Γ.Supplied assigned word) :
    Γ.Supplied assigned words.flatten := by
  induction words with
  | nil => exact Context.supplied_nil
  | cons word words ih =>
      obtain ⟨hword, hwords⟩ := List.forall_mem_cons.mp h
      exact hword.append (ih hwords) fun name hname => .inl hname

theorem Context.mem_of_readVariable {node : Node} {name : String} {ty : Ty}
    (h : Γ.readVariable assigned node name = .ok ty) (hlocal : Γ.IsLocal node name) : name ∈ assigned := by
  obtain ⟨b, hb, hread, _⟩ := Context.readVariable_eq_ok.mp h
  by_contra hname
  exact hread ⟨(Context.isLocal_iff hb).mp hlocal, hname⟩

theorem Expr.supplied {e : Expr} {ty : Ty} (h : e.typeOf Γ assigned = .ok ty) (ht : t ∈ e.paths) :
    Γ.Supplied assigned t := by
  rintro before node name after rfl hlocal
  obtain ⟨_, _, hread, hinside⟩ := e.only_reads _ ht (.read node name) (by simp)
  cases hread
  obtain ⟨_, hvar⟩ := Expr.typeOf_inside hinside h
  rw [Expr.typeOf] at hvar
  exact .inl (Context.mem_of_readVariable hvar hlocal)

theorem Context.supplied_read {node : Node} {name : String} {ty : Ty}
    (h : Γ.readVariable assigned node name = .ok ty) : Γ.Supplied assigned [.read node name] := by
  intro before node' name' after heq hlocal
  cases before with
  | nil =>
      obtain ⟨⟨rfl, rfl⟩, _⟩ : (node = node' ∧ name = name') ∧ after = [] := by simpa [eq_comm] using heq
      exact .inl (Context.mem_of_readVariable h hlocal)
  | cons access before => simp at heq

theorem Context.supplied_write {node : Node} {name : String} : Γ.Supplied assigned [.write node name] := by
  intro before node' name' after heq _
  cases before with
  | nil => simp at heq
  | cons access before => simp at heq

mutual

theorem Stmt.supplied : ∀ (s : Stmt) {assigned after : List String}, s.check Γ assigned = .ok after →
    ∀ t ∈ s.paths, Γ.Supplied assigned t
  | .block _ body, _, _, h, t, ht => by
      rw [paths] at ht
      exact Stmt.suppliedAll body (Stmt.effect_of_check h) t ht
  | .ifElse _ cond thenBranch elseBranch, _, _, h, t, ht => by
      obtain ⟨⟨_, hcond, _⟩, ⟨_, hthen⟩, _, helse⟩ := Stmt.rule_of_check h
      rw [paths] at ht
      obtain ⟨s, hs, u, hu, rfl⟩ := Language.mem_mul.mp ht
      refine (Expr.supplied hcond hs).append ?_ fun name hname => .inl hname
      rcases (Language.mem_add ..).mp hu with hu | hu
      · exact thenBranch.supplied hthen u hu
      · exact elseBranch.supplied helse u hu
  | .loop _ cond body, assigned, _, h, t, ht => by
      obtain ⟨⟨_, hcond, _⟩, _, hbody⟩ := Stmt.rule_of_check h
      rw [paths] at ht
      obtain ⟨rounds, hrounds, u, hu, rfl⟩ := Language.mem_mul.mp ht
      obtain ⟨words, rfl, hwords⟩ := Language.mem_kstar.mp hrounds
      -- every round starts with at least the variables that the first one has
      refine Context.Supplied.append (.flatten fun word hword => ?_) (Expr.supplied hcond hu)
        fun name hname => .inl hname
      obtain ⟨s, hs, v, hv, rfl⟩ := Language.mem_mul.mp (hwords word hword)
      exact (Expr.supplied hcond hs).append (body.supplied hbody v hv) fun name hname => .inl hname
  | .print _ arg, _, _, h, t, ht => by
      obtain ⟨_, harg, _⟩ := Stmt.rule_of_check h
      rw [paths] at ht
      exact Expr.supplied harg ht
  | .assign node target value, _, _, h, t, ht => by
      obtain ⟨_, _, _, hvalue, _⟩ := Stmt.rule_of_check h
      rw [paths] at ht
      obtain ⟨s, hs, u, hu, rfl⟩ := Language.mem_mul.mp ht
      obtain rfl : u = [.write node target] := hu
      exact (Expr.supplied hvalue hs).append Context.supplied_write fun name hname => .inl hname
  | .assignElement node target index value, _, _, h, t, ht => by
      obtain ⟨_, ⟨_, hindex, _⟩, _, hvalue, _⟩ := Stmt.rule_of_check h
      obtain ⟨hread, _⟩ := Stmt.effect_of_check h
      rw [paths] at ht
      obtain ⟨r, hr, u, hu, rfl⟩ := Language.mem_mul.mp ht
      obtain ⟨s, hs, v, hv, rfl⟩ := Language.mem_mul.mp hu
      obtain rfl : r = [.read node target] := hr
      refine (Context.supplied_read hread).append ?_ fun name hname => .inl hname
      exact (Expr.supplied hindex hs).append (Expr.supplied hvalue hv) fun name hname => .inl hname

theorem Stmt.suppliedAll : ∀ (ss : List Stmt) {assigned after : List String},
    Stmt.checkAll Γ assigned ss = .ok after → ∀ t ∈ Stmt.pathsAll ss, Γ.Supplied assigned t
  | [], _, _, _, t, ht => by
      rw [pathsAll, Language.mem_one] at ht
      subst ht
      exact Context.supplied_nil
  | s :: rest, _, _, h, t, ht => by
      obtain ⟨_, hs, hrest⟩ := Stmt.checkAll_cons_eq_ok h
      rw [pathsAll] at ht
      obtain ⟨u, hu, v, hv, rfl⟩ := Language.mem_mul.mp ht
      refine (s.supplied hs u hu).append (Stmt.suppliedAll rest hrest v hv) fun name hname => ?_
      exact ((s.mem_check_iff hs).mp hname).imp_right (· u hu)

end

theorem MethodDecl.supplied {a : Analysis} {C : String} {m : MethodDecl} (h : m.checkBody a C = .ok ())
    {t : List Access} (ht : t ∈ m.paths) : Context.Supplied ⟨a, some C⟩ [] t := by
  obtain ⟨assigned, hbody, _, hresult, _⟩ := MethodDecl.checkBody_eq_ok.mp h
  obtain ⟨u, hu, v, hv, rfl⟩ := Language.mem_mul.mp ht
  refine (Stmt.suppliedAll m.body hbody u hu).append (Expr.supplied hresult hv) fun name hname => ?_
  exact ((Stmt.mem_checkAll_iff m.body hbody).mp hname).imp_right (· u hu)

end

/-! ### Rejected reads -/

/-- Some path reads the local variable of a name at a place in the text where it has no value: the name is not one
of `assigned`, and the path does not assign it before. -/
def Context.Exposes (Γ : Context) (assigned : List String) (span : Span) (name : String) (L : Language Access) : Prop :=
  name ∉ assigned ∧ ∃ before node after, before ++ .read node name :: after ∈ L ∧ node.span = span ∧
    Γ.IsLocal node name ∧ ¬ Γ.Assigns name before

/-- An error that is not about a variable without a value. -/
def SparesReads (e : Located TypingFault) : Prop :=
  ∀ name, e.cause ≠ .unassigned name

section
variable {Γ : Context} {assigned between : List String} {span : Span} {name : String} {L M : Language Access}

namespace Context.Exposes

theorem mono (h : Γ.Exposes assigned span name L) (hsub : ∀ t ∈ L, t ∈ M) : Γ.Exposes assigned span name M := by
  obtain ⟨hname, before, node, after, hmem, hread⟩ := h
  exact ⟨hname, before, node, after, hsub _ hmem, hread⟩

/-- A path that leads to the read can be continued. -/
theorem mul_left (h : Γ.Exposes assigned span name L) (hM : ∃ t, t ∈ M) : Γ.Exposes assigned span name (L * M) := by
  obtain ⟨hname, before, node, after, hmem, hread⟩ := h
  obtain ⟨t, ht⟩ := hM
  refine ⟨hname, before, node, after ++ t, ?_, hread⟩
  rw [← List.cons_append, ← List.append_assoc]
  exact Language.append_mem_mul hmem ht

/-- If the variables between two pieces of code are exactly those that have a value on every path, a read that is
rejected in the second one can be reached through the first one. -/
theorem mul_right (h : Γ.Exposes between span name M)
    (hbetween : name ∈ between ↔ name ∈ assigned ∨ Γ.AlwaysAssigns name L) : Γ.Exposes assigned span name (L * M) := by
  obtain ⟨hname, before, node, after, hmem, hspan, hlocal, hfree⟩ := h
  rw [hbetween, not_or] at hname
  obtain ⟨hname, hnot⟩ := hname
  simp only [AlwaysAssigns, not_forall] at hnot
  obtain ⟨s, hs, hsfree⟩ := hnot
  refine ⟨hname, s ++ before, node, after, ?_, hspan, hlocal, ?_⟩
  · rw [List.append_assoc]
    exact Language.append_mem_mul hs hmem
  · rw [assigns_append, not_or]
    exact ⟨hsfree, hfree⟩

theorem behind_expr (h : Γ.Exposes assigned span name M) (e : Expr) : Γ.Exposes assigned span name (e.paths * M) :=
  h.mul_right (by simp)

theorem operand (h : Γ.Exposes assigned span name L) (op : BinOp) :
    Γ.Exposes assigned span name (if op = .and then 1 + L else L) := by
  split
  · exact h.mono fun t ht => (Language.mem_add ..).mpr (.inr ht)
  · exact h

end Context.Exposes

/-! Only reads of variables are rejected for want of a value. -/

theorem Forest.checkType_spares (F : Forest) (ty : Ty) (span : Span) : FailsWith SparesReads (F.checkType ty span) := by
  cases ty with
  | object C => exact .ite (.pure ()) (.error fun _ => TypingFault.noConfusion)
  | _ => exact .pure ()

namespace Context

theorem fits_spares (role : Role) (expected actual : Ty) (span : Span) :
    FailsWith SparesReads (Γ.fits role expected span actual) :=
  .ite (.pure ()) (.error fun _ => TypingFault.noConfusion)

theorem resolve_spares (node : Node) (name : String) : FailsWith SparesReads (Γ.resolve node name) := by
  unfold resolve
  split
  · exact .pure _
  · exact .error fun _ => TypingFault.noConfusion

theorem callee_spares (node : Node) (span : Span) (owner : Ty) (method : String) (count : Nat) :
    FailsWith SparesReads (Γ.callee node span owner method count) := by
  unfold callee
  split
  · exact .error fun _ => TypingFault.noConfusion
  · split
    · exact .error fun _ => TypingFault.noConfusion
    · exact .ite (.pure _) (.error fun _ => TypingFault.noConfusion)

/-- A local variable that is rejected where it is read has no value there. -/
theorem exposes_of_readVariable {node : Node} {x : String}
    (h : Γ.readVariable assigned node x = .error ⟨span, .unassigned name⟩) :
    Γ.Exposes assigned span name {[.read node x]} := by
  rcases bind_eq_error.mp h with h | ⟨b, hb, h⟩
  · exact absurd rfl (resolve_spares node x _ h name)
  · by_cases hbad : b.storage = .local ∧ x ∉ assigned
    · rw [if_pos hbad] at h
      cases h
      exact ⟨hbad.2, [], node, [], rfl, rfl, (isLocal_iff (resolve_eq_ok.mp hb)).mpr hbad.1, not_assigns_nil⟩
    · rw [if_neg hbad] at h
      cases h

end Context

/-- Where a part must have a type, a read is rejected in the part or behind it. -/
theorem Expr.unassigned_of_part {α : Type} {e : Expr} {role : Role} {expected : Ty} {place : Span}
    {rest : Unit → Except (Located TypingFault) α}
    (h : (e.typeOf Γ assigned >>= fun ty => Γ.fits role expected place ty >>= rest) =
      .error ⟨span, .unassigned name⟩) :
    e.typeOf Γ assigned = .error ⟨span, .unassigned name⟩ ∨ rest () = .error ⟨span, .unassigned name⟩ := by
  rcases bind_eq_error.mp h with h | ⟨ty, _, h⟩
  · exact .inl h
  · rcases bind_eq_error.mp h with h | ⟨_, _, h⟩
    · exact absurd rfl (Context.fits_spares _ _ _ _ _ h name)
    · exact .inr h

mutual

theorem Expr.exposes_of_typeOf : ∀ e : Expr, e.typeOf Γ assigned = .error ⟨span, .unassigned name⟩ →
    Γ.Exposes assigned span name e.paths
  | .binary _ op left right, h => by
      rw [typeOf] at h
      rw [paths]
      rcases unassigned_of_part h with h | h
      · obtain ⟨t, ht⟩ := right.exists_path
        refine (left.exposes_of_typeOf h).mul_left ⟨t, ?_⟩
        split
        · exact (Language.mem_add ..).mpr (.inr ht)
        · exact ht
      · rcases unassigned_of_part h with h | h
        · exact ((right.exposes_of_typeOf h).operand op).behind_expr left
        · cases h
  | .element _ array index, h => by
      rw [typeOf] at h
      rw [paths]
      rcases unassigned_of_part h with h | h
      · exact (array.exposes_of_typeOf h).mul_left index.exists_path
      · rcases unassigned_of_part h with h | h
        · exact (index.exposes_of_typeOf h).behind_expr array
        · cases h
  | .length _ array, h => by
      rw [typeOf] at h
      rw [paths]
      rcases unassigned_of_part h with h | h
      · exact array.exposes_of_typeOf h
      · cases h
  | .call node owner method args, h => by
      rw [typeOf] at h
      rw [paths]
      rcases bind_eq_error.mp h with h | ⟨ownerTy, _, h⟩
      · exact (owner.exposes_of_typeOf h).mul_left (Expr.exists_pathAll args)
      · rcases bind_eq_error.mp h with h | ⟨signature, _, h⟩
        · exact absurd rfl (Context.callee_spares _ _ _ _ _ _ h name)
        · rcases bind_eq_error.mp h with h | ⟨_, _, h⟩
          · exact (Expr.exposes_of_checkArgs args _ h).behind_expr owner
          · cases h
  | .var node x, h => by
      rw [typeOf] at h
      rw [paths]
      exact Context.exposes_of_readVariable h
  | .this _, h => by
      rw [typeOf] at h
      split at h <;> cases h
  | .newArray _ size, h => by
      rw [typeOf] at h
      rw [paths]
      rcases unassigned_of_part h with h | h
      · exact size.exposes_of_typeOf h
      · cases h
  | .newObject node C, h => by
      rw [typeOf] at h
      rcases bind_eq_error.mp h with h | ⟨_, _, h⟩
      · exact absurd rfl (Forest.checkType_spares _ _ _ _ h name)
      · cases h
  | .not _ operand, h => by
      rw [typeOf] at h
      rw [paths]
      rcases unassigned_of_part h with h | h
      · exact operand.exposes_of_typeOf h
      · cases h
  | .int _ _, h => by
      rw [typeOf] at h
      cases h
  | .bool _ _, h => by
      rw [typeOf] at h
      cases h

theorem Expr.exposes_of_checkArgs : ∀ (args : List Expr) (formals : List Ty),
    Expr.checkArgs Γ assigned args formals = .error ⟨span, .unassigned name⟩ →
    Γ.Exposes assigned span name (Expr.pathsAll args)
  | [], _, h => by
      rw [checkArgs] at h
      · cases h
      · simp
  | _ :: _, [], h => by
      rw [checkArgs] at h
      · cases h
      · simp
  | arg :: args, formal :: formals, h => by
      rw [checkArgs] at h
      rw [pathsAll]
      rcases unassigned_of_part h with h | h
      · exact (arg.exposes_of_typeOf h).mul_left (Expr.exists_pathAll args)
      · exact (Expr.exposes_of_checkArgs args formals h).behind_expr arg

end

theorem Expr.exposes_of_check {e : Expr} {role : Role} {expected : Ty}
    (h : e.check Γ assigned role expected = .error ⟨span, .unassigned name⟩) :
    Γ.Exposes assigned span name e.paths := by
  rcases bind_eq_error.mp h with h | ⟨ty, _, h⟩
  · exact e.exposes_of_typeOf h
  · exact absurd rfl (Context.fits_spares _ _ _ _ _ h name)

mutual

/-- Where a read in a statement is rejected, a path leads there on which the variable is not assigned. -/
theorem Stmt.exposes_of_check : ∀ (s : Stmt) {assigned : List String},
    s.check Γ assigned = .error ⟨span, .unassigned name⟩ → Γ.Exposes assigned span name s.paths
  | .block _ body, _, h => by
      rw [check] at h
      rw [paths]
      exact Stmt.exposes_of_checkAll body h
  | .ifElse _ cond thenBranch elseBranch, _, h => by
      rw [check] at h
      rw [paths]
      rcases bind_eq_error.mp h with h | ⟨_, _, h⟩
      · obtain ⟨t, ht⟩ := thenBranch.exists_path
        exact (Expr.exposes_of_check h).mul_left ⟨t, (Language.mem_add ..).mpr (.inl ht)⟩
      · refine Context.Exposes.behind_expr ?_ cond
        rcases bind_eq_error.mp h with h | ⟨afterThen, _, h⟩
        · exact (thenBranch.exposes_of_check h).mono fun t ht => (Language.mem_add ..).mpr (.inl ht)
        · rcases bind_eq_error.mp h with h | ⟨afterElse, _, h⟩
          · exact (elseBranch.exposes_of_check h).mono fun t ht => (Language.mem_add ..).mpr (.inr ht)
          · cases h
  | .loop _ cond body, _, h => by
      rw [check] at h
      rw [paths]
      rcases bind_eq_error.mp h with h | ⟨_, _, h⟩
      · refine (Expr.exposes_of_check h).mono fun t ht => ?_
        exact Language.append_mem_mul (Language.nil_mem_kstar _) ht
      · rcases bind_eq_error.mp h with h | ⟨after, _, h⟩
        · -- the first round leads to the read
          have hround := (body.exposes_of_check h).behind_expr cond
          refine (hround.mono fun t ht => ?_).mul_left cond.exists_path
          exact Language.mem_kstar.mpr ⟨[t], by simp, by simpa using ht⟩
        · cases h
  | .print _ arg, _, h => by
      rw [check] at h
      rw [paths]
      rcases bind_eq_error.mp h with h | ⟨_, _, h⟩
      · exact Expr.exposes_of_check h
      · cases h
  | .assign node target value, _, h => by
      rw [check] at h
      rw [paths]
      rcases bind_eq_error.mp h with h | ⟨_, _, h⟩
      · exact (value.exposes_of_typeOf h).mul_left ⟨_, rfl⟩
      · rcases bind_eq_error.mp h with h | ⟨b, _, h⟩
        · exact absurd rfl (Context.resolve_spares _ _ _ h name)
        · rcases bind_eq_error.mp h with h | ⟨_, _, h⟩
          · exact absurd rfl (Context.fits_spares _ _ _ _ _ h name)
          · cases h
  | .assignElement node target index value, assigned, h => by
      rw [check] at h
      rw [paths]
      obtain ⟨s, hs⟩ := index.exists_path
      obtain ⟨t, ht⟩ := value.exists_path
      rcases bind_eq_error.mp h with h | ⟨targetTy, _, h⟩
      · exact (Context.exposes_of_readVariable h).mul_left ⟨s ++ t, Language.append_mem_mul hs ht⟩
      · by_cases harray : targetTy ≠ .intArray
        · rw [if_pos harray] at h
          cases h
        · rw [if_neg harray] at h
          have hread : name ∈ assigned ↔ name ∈ assigned ∨ Γ.AlwaysAssigns name {[.read node target]} := by simp
          refine Context.Exposes.mul_right ?_ hread
          rcases bind_eq_error.mp h with h | ⟨_, _, h⟩
          · exact (Expr.exposes_of_check h).mul_left value.exists_path
          · rcases bind_eq_error.mp h with h | ⟨_, _, h⟩
            · exact (Expr.exposes_of_check h).behind_expr index
            · cases h

theorem Stmt.exposes_of_checkAll : ∀ (ss : List Stmt) {assigned : List String},
    Stmt.checkAll Γ assigned ss = .error ⟨span, .unassigned name⟩ → Γ.Exposes assigned span name (Stmt.pathsAll ss)
  | [], _, h => by
      rw [checkAll] at h
      cases h
  | s :: rest, _, h => by
      rw [checkAll] at h
      rw [pathsAll]
      rcases bind_eq_error.mp h with h | ⟨between, hs, h⟩
      · exact (s.exposes_of_check h).mul_left (Stmt.exists_pathAll rest)
      · exact (Stmt.exposes_of_checkAll rest h).mul_right (s.mem_check_iff hs)

end

theorem MethodDecl.exposes_of_checkBody {a : Analysis} {C : String} {m : MethodDecl}
    (h : m.checkBody a C = .error ⟨span, .unassigned name⟩) :
    Context.Exposes ⟨a, some C⟩ [] span name m.paths := by
  rcases bind_eq_error.mp h with h | ⟨between, hbody, h⟩
  · exact (Stmt.exposes_of_checkAll m.body h).mul_left m.result.exists_path
  · exact (Expr.exposes_of_check h).mul_right (Stmt.mem_checkAll_iff m.body hbody)

end

/-! ### Programs -/

section
variable {a : Analysis} {p : Program} {c : ClassDecl} {m : MethodDecl} {span : Span} {name : String}

theorem checkBindings_spares (F : Forest) {repeated : String → TypingFault}
    (hrepeated : ∀ x name, repeated x ≠ .unassigned name) :
    ∀ (vs : List VarDecl) {seen : List String}, FailsWith SparesReads (checkBindings F repeated seen vs)
  | [], _ => .pure _
  | v :: vs, _ => by
      rw [checkBindings]
      refine .bind (F.checkType_spares _ _) fun _ => ?_
      exact .passing (hrepeated v.name) (checkBindings_spares F hrepeated vs)

theorem ClassDecl.checkFields_spares (F : Forest) (c : ClassDecl) (inherited : List String) :
    ∀ (fs : List VarDecl) {seen : List String}, FailsWith SparesReads (c.checkFields F inherited seen fs)
  | [], _ => .pure _
  | f :: fs, _ => by
      rw [checkFields]
      refine .bind (F.checkType_spares _ _) fun _ => ?_
      refine .passing (fun _ => TypingFault.noConfusion) (.passing (fun _ => TypingFault.noConfusion) ?_)
      exact checkFields_spares F c inherited fs

theorem MethodDecl.checkDecl_spares (m : MethodDecl) : FailsWith SparesReads (m.checkDecl a c) := by
  refine .bind (Forest.checkType_spares _ _ _) fun _ => ?_
  refine .bind (checkBindings_spares _ (by simp) _) fun _ => ?_
  refine .bind (checkBindings_spares _ (by simp) _) fun _ => ?_
  rw [checkOverride]
  split
  · exact .pure _
  · refine .passing (fun _ => TypingFault.noConfusion) (.ite (.error ?_) (.pure _))
    exact fun _ => TypingFault.noConfusion

theorem ClassDecl.checkMethods_spares (a : Analysis) (c : ClassDecl) :
    ∀ (ms : List MethodDecl) {seen : List String}, FailsWith SparesReads (c.checkMethods a seen ms)
  | [], _ => .pure _
  | m :: ms, _ => by
      rw [checkMethods]
      exact .passing (fun _ => TypingFault.noConfusion) (.bind m.checkDecl_spares fun _ => checkMethods_spares a c ms)

/-- There are no local variables in the main method. -/
theorem Analysis.Describes.not_isLocal_main (h : a.Describes p) (hids : (nodeIds p.visits).Nodup) {t : List Access}
    (ht : t ∈ p.main.body.paths) (access : Access) (haccess : access ∈ t) :
    ¬ Context.IsLocal ⟨a, none⟩ access.node name := by
  have hid : access.node.id ∈ nodeIds p.main.visits := by
    rw [MainClass.visits, nodeIds_cons_of_some rfl]
    exact List.mem_cons_of_mem _ (p.main.body.paths_at t ht access haccess)
  rintro ⟨b, hb, _⟩
  rw [h.resolve?_main hids hid] at hb
  cases hb

/-- A program that is rejected for a variable without a value has a method that is. -/
theorem Analysis.Describes.exists_unassigned (h : a.Describes p) (hids : (nodeIds p.visits).Nodup)
    (hcheck : p.check a = .error ⟨span, .unassigned name⟩) :
    ∃ c ∈ p.classes, ∃ m ∈ c.methods, m.checkBody a c.name = .error ⟨span, .unassigned name⟩ := by
  rcases bind_eq_error.mp hcheck with hdecls | ⟨_, _, hcheck⟩
  · obtain ⟨c, _, hdecl⟩ := exists_of_forM_eq_error hdecls
    have hspares : FailsWith SparesReads (c.checkDecl a) :=
      .bind (c.checkFields_spares _ _ _) fun _ => c.checkMethods_spares a _
    exact absurd rfl (hspares _ hdecl name)
  · rcases bind_eq_error.mp hcheck with hmain | ⟨_, _, hbodies⟩
    · obtain ⟨_, before, node, after, hmem, _, hlocal, _⟩ := p.main.body.exposes_of_check hmain
      exact absurd hlocal (h.not_isLocal_main hids hmem (.read node name) (by simp))
    · obtain ⟨c, hc, hmethods⟩ := exists_of_forM_eq_error hbodies
      obtain ⟨m, hm, hbody⟩ := exists_of_forM_eq_error hmethods
      exact ⟨c, hc, m, hm, hbody⟩

/-- All over a method, a name stands for one and the same variable. -/
theorem Analysis.Describes.resolve?_eq (h : a.Describes p) (hids : (nodeIds p.visits).Nodup) (hc : c ∈ p.classes)
    (hm : m ∈ c.methods) {t : List Access} (ht : t ∈ m.paths) (access access' : Access) (haccess : access ∈ t)
    (haccess' : access' ∈ t) (name : String) :
    a.scopes.resolve? access.node.id name = a.scopes.resolve? access'.node.id name := by
  rw [h.resolve? hids hc hm (m.paths_at t ht access haccess), h.resolve? hids hc hm (m.paths_at t ht access' haccess')]

end

/-- In a program that was read, all paths through the methods are as the checks have it. If the program passes, a
local variable is assigned on every path before it is read. A statement that passes leaves a value to exactly the
variables that had one and to those that all paths through it assign. A read that is rejected for want of a value
stands on a path that does not assign the variable before. -/
theorem initialization_sound_and_exact {source : String} {p : Program} {a : Analysis} (hparse : parse source = .ok p)
    (ha : Analysis.ofProgram p = .ok a) :
    (p.check a = .ok () → ∀ c ∈ p.classes, ∀ m ∈ c.methods, ∀ before node name after,
      before ++ .read node name :: after ∈ m.paths →
      ∀ b, a.scopes.resolve? node.id name = some b → b.storage = .local →
        ∃ node', .write node' name ∈ before ∧ a.scopes.resolve? node'.id name = some b) ∧
    (∀ (Γ : Context) (s : Stmt) (assigned after : List String), s.check Γ assigned = .ok after →
      ∀ name, name ∈ after ↔ name ∈ assigned ∨ ∀ t ∈ s.paths, Γ.Assigns name t) ∧
    (∀ c ∈ p.classes, ∀ m ∈ c.methods, ∀ span name, m.checkBody a c.name = .error ⟨span, .unassigned name⟩ →
      ∃ before node after, before ++ .read node name :: after ∈ m.paths ∧ node.span = span ∧
        (∃ b, a.scopes.resolve? node.id name = some b ∧ b.storage = .local) ∧ ∀ node', .write node' name ∉ before) ∧
    ∀ span name, p.check a = .error ⟨span, .unassigned name⟩ →
      ∃ c ∈ p.classes, ∃ m ∈ c.methods, m.checkBody a c.name = .error ⟨span, .unassigned name⟩ := by
  have h := Analysis.describes ha
  have hids := nodeIds_nodup_of_parse hparse
  refine ⟨?_, fun Γ s _ _ hs name => s.mem_check_iff hs, ?_, fun span name => h.exists_unassigned hids⟩
  · intro hcheck c hc m hm before node name after hmem b hb hlocal
    have hbody := (Program.check_eq_ok.mp hcheck).2.2 c hc m hm
    rcases MethodDecl.supplied hbody hmem before node name after rfl ⟨b, hb, hlocal⟩ with hname | hassigns
    · cases hname
    · obtain ⟨node', hwrite, _⟩ := hassigns
      refine ⟨node', hwrite, ?_⟩
      rw [← hb]
      exact h.resolve?_eq hids hc hm hmem (.write node' name) (.read node name) (List.mem_append_left _ hwrite)
        (by simp) name
  · intro c hc m hm span name hbody
    obtain ⟨_, before, node, after, hmem, hspan, hlocal, hfree⟩ := MethodDecl.exposes_of_checkBody hbody
    refine ⟨before, node, after, hmem, hspan, hlocal, fun node' hwrite => hfree ⟨node', hwrite, ?_⟩⟩
    obtain ⟨b, hb, hstorage⟩ := hlocal
    refine ⟨b, ?_, hstorage⟩
    rw [← hb]
    exact h.resolve?_eq hids hc hm hmem (.write node' name) (.read node name) (List.mem_append_left _ hwrite)
      (by simp) name

theorem rejected_of_validate {source : String} {e : Located TypingFault}
    (h : (parse source >>= Program.validate) = .error (.typing e)) :
    ∃ p a, parse source = .ok p ∧ Analysis.ofProgram p = .ok a ∧ p.check a = .error e := by
  rcases bind_eq_error.mp h with h | ⟨p, hparse, h⟩
  · rcases parse_eq_error h with ⟨_, he⟩ | ⟨_, he⟩ <;> cases he
  · rcases bind_eq_error.mp h with h | ⟨a, ha, h⟩
    · obtain ⟨_, _, he⟩ := Analysis.ofProgram_eq_error h
      cases he
    · obtain ⟨_, hcheck, he⟩ := mapError_eq_error.mp h
      cases he
      exact ⟨p, a, hparse, ha, hcheck⟩

/-- A variable gets its value in both branches of an alternative, and is read in a loop. -/
def bothBranchesSource : String :=
  "class A\x7bpublic static void main(String[]a)\x7b\x7b\x7d\x7d\x7d " ++
    "class B\x7bint f(boolean b)\x7bint x;if(b)x=1;else x=2;while(b&&x<3)x=x+1;return x;\x7d\x7d"

/-- A variable gets its value in a loop, which need not be entered. -/
def loopOnlySource : String :=
  "class A\x7bpublic static void main(String[]a)\x7b\x7b\x7d\x7d\x7d " ++
    "class B\x7bint f(boolean b)\x7bint x;while(b)x=1;return x;\x7d\x7d"

theorem initialization_sound_and_exact_branches :
    (∃ p a, parse bothBranchesSource = .ok p ∧ Analysis.ofProgram p = .ok a ∧ p.check a = .ok () ∧
      ∀ c ∈ p.classes, ∀ m ∈ c.methods, ∀ before node name after, before ++ .read node name :: after ∈ m.paths →
      ∀ b, a.scopes.resolve? node.id name = some b → b.storage = .local →
        ∃ node', .write node' name ∈ before ∧ a.scopes.resolve? node'.id name = some b) ∧
    ∃ p a, parse loopOnlySource = .ok p ∧ Analysis.ofProgram p = .ok a ∧
      p.check a = .error ⟨⟨98, 99⟩, .unassigned "x"⟩ ∧
      ∃ c ∈ p.classes, ∃ m ∈ c.methods, ∃ before node after, before ++ .read node "x" :: after ∈ m.paths ∧
        node.span = ⟨98, 99⟩ ∧ ∀ node', .write node' "x" ∉ before := by
  constructor
  · have hvalid : (isValid bothBranchesSource).toOption = some true := by decide +kernel
    obtain ⟨p, a, hparse, ha, hcheck⟩ := accepted_of_isValid hvalid
    exact ⟨p, a, hparse, ha, hcheck, (initialization_sound_and_exact hparse ha).1 hcheck⟩
  · have hrejected : (parse loopOnlySource >>= Program.validate) = .error (.typing ⟨⟨98, 99⟩, .unassigned "x"⟩) := by
      decide +kernel
    obtain ⟨p, a, hparse, ha, hcheck⟩ := rejected_of_validate hrejected
    obtain ⟨_, _, hmethod, hprogram⟩ := initialization_sound_and_exact hparse ha
    obtain ⟨c, hc, m, hm, hbody⟩ := hprogram _ _ hcheck
    obtain ⟨before, node, after, hmem, hspan, _, hfree⟩ := hmethod c hc m hm _ _ hbody
    exact ⟨p, a, hparse, ha, hcheck, c, hc, m, hm, before, node, after, hmem, hspan, hfree⟩

end Demitasse
