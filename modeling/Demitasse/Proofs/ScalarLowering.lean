import Demitasse.Proofs.ControlFlow
import Demitasse.Proofs.Globals
import Demitasse.Proofs.ScalarCode
import Demitasse.Proofs.SingleAssignment

/-!
Methods on numbers and truth values and their functions. A statement and its code come to an end together, in a
memory and a machine that match, or neither of them does. For a loop this is seen iteration by iteration: if
no number of iterations leads to the end, evaluation runs out of any fuel and the machine goes on for any number
of steps.
-/

namespace Demitasse

namespace Code

theorem choice_append (n : Nat) (cond : Operand) (thenCode elseCode post : Code) :
    choice n cond thenCode elseCode ++ post =
      .instr (.branchIf cond ⟨"if", n⟩ ⟨"if", n + 1⟩) :: .label ⟨"if", n⟩ ::
        (thenCode ++ (.instr (.branch ⟨"if", n + 2⟩) :: .label ⟨"if", n + 1⟩ ::
          (elseCode ++ (.instr (.branch ⟨"if", n + 2⟩) :: .label ⟨"if", n + 2⟩ :: post)))) := by
  simp only [choice, List.append_assoc, List.cons_append, List.nil_append]

/-- The code of a loop from the label in front of its condition on, followed by other code. -/
def again (n : Nat) (condCode : Code) (cond : Operand) (body post : Code) : Code :=
  condCode ++ (.instr (.branchIf cond ⟨"loop", n + 1⟩ ⟨"loop", n + 2⟩) :: .label ⟨"loop", n + 1⟩ ::
    (body ++ (.instr (.branch ⟨"loop", n⟩) :: .label ⟨"loop", n + 2⟩ :: post)))

theorem cycle_append (n : Nat) (condCode : Code) (cond : Operand) (body post : Code) :
    cycle n condCode cond body ++ post =
      .instr (.branch ⟨"loop", n⟩) :: .label ⟨"loop", n⟩ :: again n condCode cond body post := by
  simp only [cycle, again, List.append_assoc, List.cons_append, List.nil_append]

end Code

theorem index_unique {stack : List (String × VarBinding)} (hnodup : (stack.map (·.1)).Nodup) {i j : Nat}
    {e e' : String × VarBinding} (hi : stack[i]? = some e) (hj : stack[j]? = some e') (heq : e.1 = e'.1) : i = j := by
  have hlt : i < (stack.map (·.1)).length := by
    rw [List.length_map]
    exact (List.getElem?_eq_some_iff.mp hi).1
  apply (List.getElem?_inj hlt hnodup).mp
  rw [List.getElem?_map, List.getElem?_map, hi, hj, Option.map_some, Option.map_some, heq]

theorem Machine.steps_print {C rest : Code} {M : Machine} {arg : Operand} {n : BitVec 32}
    (h : M.rest = .instr (.call none (.returns .void) (.global printInt.sig.name) [(.i32, arg)]) :: rest)
    (hn : arg.word? M.regs .i32 = some (.i32 n)) :
    Steps C 1 M { M with rest := rest, output := M.output ++ [n] } := by
  apply Steps.single
  rw [step_instr h]
  simp only [perform, if_true, print, hn]

section
variable {stack : List (String × VarBinding)} {assigned : List String} {base : List (BitVec 32)} {s : Memory}
  {M : Machine}

theorem Matches.arrive (h : Matches stack assigned base s M) (l : Label) (rest : Code) :
    Matches stack assigned base s (M.arrive l rest) :=
  h.keeps (n := 0) (Machine.keeps_arrive l rest) rfl rfl

theorem Matches.print (h : Matches stack assigned base s M) (n : BitVec 32) (rest : Code) :
    Matches stack assigned base { s with output := s.output ++ [n] }
      { M with rest := rest, output := M.output ++ [n] } := by
  refine ⟨h.address, h.value, ?_⟩
  rw [h.output, List.append_assoc]

/-- After an assignment to a variable its cell holds the new value and the others what they held. -/
theorem Matches.write (h : Matches stack assigned base s M) (hnodup : (stack.map (·.1)).Nodup) {i : Nat}
    {name : String} {b : VarBinding} (hi : stack[i]? = some (name, b)) {x : Scalar} (hx : x.ty = b.ty)
    (rest : Code) :
    Matches stack (if b.storage = .local then assigned.insert name else assigned) base
      { s with vars := s.vars.insert name (some x.datum) }
      { M with rest := rest, cells := M.cells.set i (some x.word) } := by
  refine ⟨h.address, fun j e hj => ?_, h.output⟩
  by_cases hji : j = i
  · subst hji
    cases hi.symm.trans hj
    obtain ⟨_, _, hcell, _⟩ := h.value j _ hj
    have hlt : j < M.cells.length := (List.getElem?_eq_some_iff.mp hcell).1
    refine ⟨some x, ?_, ?_, fun y hy => Option.some.inj hy ▸ hx, nofun⟩
    · rw [Table.find?_insert, if_pos rfl]
      rfl
    · rw [List.getElem?_set_self hlt]
      rfl
  · have hname : e.1 ≠ name := fun hname => hji (index_unique hnodup hj hi hname)
    obtain ⟨y, hfind, hcell, hty, hnone⟩ := h.value j e hj
    refine ⟨y, ?_, ?_, hty, fun hy => ⟨(hnone hy).1, ?_⟩⟩
    · rw [Table.find?_insert, if_neg hname]
      exact hfind
    · rw [List.getElem?_set_ne (Ne.symm hji)]
      exact hcell
    · by_cases hlocal : b.storage = .local
      · rw [if_pos hlocal, List.mem_insert_iff]
        exact fun hmem => hmem.elim hname (hnone hy).2
      · rw [if_neg hlocal]
        exact (hnone hy).2

end

namespace Setting

variable (K : Setting)

/-- A computation and a machine come to an end together, the machine at the code `post`, or neither does. -/
def Agree (x : Nat → Exec Unit) (post : Code) (after : List String) (s : Memory) (M : Machine) : Prop :=
  (∃ s' M', Exec.Converges x s () s' ∧ (∃ k, Machine.Steps K.code k M M') ∧ M'.rest = post ∧
    Matches K.stack after K.base s' M') ∨
  (Exec.Diverges x s ∧ M.Endless K.code)

variable {K} {x y : Nat → Exec Unit} {mid post : Code} {between after : List String} {s : Memory} {M M' : Machine}

theorem Agree.of_steps (hsteps : ∃ k, Machine.Steps K.code k M M') (h : K.Agree x post after s M') :
    K.Agree x post after s M := by
  obtain ⟨j, hj⟩ := hsteps
  rcases h with ⟨s', M'', hconv, ⟨k, hk⟩, hrest, hM⟩ | ⟨hdiv, hendless⟩
  · exact .inl ⟨s', M'', hconv, ⟨_, hj.trans hk⟩, hrest, hM⟩
  · exact .inr ⟨hdiv, .of_steps hj hendless⟩

theorem Agree.exec {st : Stmt}
    (h : K.Agree (fun n => (Evaluator.withFuel K.program n).execForm K.program K.frame st) post after s M) :
    K.Agree (fun n => (Evaluator.withFuel K.program n).exec K.frame st) post after s M := by
  rcases h with ⟨s', M', hconv, hsteps, hrest, hM⟩ | ⟨hdiv, hendless⟩
  · exact .inl ⟨s', M', hconv.exec, hsteps, hrest, hM⟩
  · exact .inr ⟨hdiv.exec, hendless⟩

/-- What comes first in the computation takes no part in it. -/
theorem Agree.after_converges {α : Type} {x : Nat → Exec α} {f : Nat → α → Exec Unit} {v : α} {s' : Memory}
    (hx : Exec.Converges x s v s') (h : K.Agree (fun n => f n v) post after s' M) :
    K.Agree (fun n => x n >>= f n) post after s M := by
  rcases h with ⟨s'', M', hconv, hsteps, hrest, hM⟩ | ⟨hdiv, hendless⟩
  · exact .inl ⟨s'', M', hx.bind hconv, hsteps, hrest, hM⟩
  · exact .inr ⟨hx.bind_diverges hdiv, hendless⟩

/-- One computation after another, and one code after another. -/
theorem Agree.bind (hx : K.Agree x mid between s M)
    (hy : ∀ s' M', M'.rest = mid → Matches K.stack between K.base s' M' → K.Agree y post after s' M') :
    K.Agree (fun n => x n >>= fun _ => y n) post after s M := by
  rcases hx with ⟨s', M', hconv, hsteps, hrest, hM⟩ | ⟨hdiv, hendless⟩
  · exact .of_steps hsteps (.after_converges (f := fun n _ => y n) hconv (hy s' M' hrest hM))
  · exact .inr ⟨hdiv.bind (f := fun n _ => y n), hendless⟩

/-- What comes last in the code changes no cells and prints nothing. -/
theorem Agree.through (hx : K.Agree x mid between s M)
    (h : ∀ M', M'.rest = mid → ∃ M'', (∃ k, Machine.Steps K.code k M' M'') ∧ M''.rest = post ∧ M'.Keeps 0 M'')
    (hsub : after ⊆ between) : K.Agree x post after s M := by
  rcases hx with ⟨s', M', hconv, ⟨j, hj⟩, hrest, hM⟩ | hdiv
  · obtain ⟨M'', ⟨k, hk⟩, hrest'', hkeeps⟩ := h M' hrest
    exact .inl ⟨s', M'', hconv, ⟨_, hj.trans hk⟩, hrest'', (hM.keeps hkeeps rfl rfl).forget hsub⟩
  · exact .inr hdiv

/-- Iterations. Where each one leads to the end or to the next one, which a machine reaches in some steps and a
computation with less fuel, both come to the end or neither does. -/
theorem Agree.iterate (Head : Memory → Machine → Prop) (hzero : ∀ s, (x 0).Exhausted s)
    (hnext : ∀ s M, Head s M → K.Agree x post after s M ∨ ∃ s' M', Head s' M' ∧
      (∃ k, Machine.Steps K.code (k + 1) M M') ∧ (∀ n, (x n).Exhausted s' → (x (n + 1)).Exhausted s) ∧
      (K.Agree x post after s' M' → K.Agree x post after s M)) :
    ∀ s M, Head s M → K.Agree x post after s M := by
  intro s M hhead
  by_contra hnot
  apply hnot
  refine .inr ⟨fun n => ?_, fun k => ?_⟩
  · induction n generalizing s M with
    | zero => exact hzero s
    | succ n ih =>
        rcases hnext s M hhead with h | ⟨s', M', hhead', _, hexhausted, hback⟩
        · exact absurd h hnot
        · exact hexhausted n (ih s' M' hhead' fun h => hnot (hback h))
  · induction k generalizing s M with
    | zero => exact ⟨M, .refl M⟩
    | succ k ih =>
        rcases hnext s M hhead with h | ⟨s', M', hhead', ⟨j, hj⟩, _, hback⟩
        · exact absurd h hnot
        · obtain ⟨M'', hk⟩ := ih s' M' hhead' fun h => hnot (hback h)
          exact (hj.trans hk).take (by omega)

variable (K)

/-- A statement that computes with the variables of a method. -/
structure AdmitsStmt (st : Stmt) : Prop where
  scalar : st.isScalar (K.stack.map (·.1)) = true
  ids : nodeIds st.visits ⊆ K.ids

/-- Statements in a row that compute with the variables of a method. -/
structure AdmitsAll (ss : List Stmt) : Prop where
  scalar : Stmt.isScalarAll (K.stack.map (·.1)) ss = true
  ids : nodeIds (Stmt.visitsAll ss) ⊆ K.ids

/-- A statement and its code come to an end together or not at all. -/
def Runs (st : Stmt) : Prop :=
  ∀ ⦃names names' : Names⦄ ⦃code post : Code⦄ ⦃assigned after : List String⦄ ⦃s : Memory⦄ ⦃M : Machine⦄,
    names.slots = K.slots → (st.lower K.Γ).run names = .ok (code, names') → st.check K.Γ assigned = .ok after →
    Matches K.stack assigned K.base s M → M.rest = code ++ post → M.rest <:+ K.code →
    K.Agree (fun n => (Evaluator.withFuel K.program n).exec K.frame st) post after s M

/-- Statements in a row and their code come to an end together or not at all. -/
def RunsAll (ss : List Stmt) : Prop :=
  ∀ ⦃names names' : Names⦄ ⦃code post : Code⦄ ⦃assigned after : List String⦄ ⦃s : Memory⦄ ⦃M : Machine⦄,
    names.slots = K.slots → (Stmt.lowerAll K.Γ ss).run names = .ok (code, names') →
    Stmt.checkAll K.Γ assigned ss = .ok after → Matches K.stack assigned K.base s M → M.rest = code ++ post →
    M.rest <:+ K.code →
    K.Agree (fun n => ss.forM ((Evaluator.withFuel K.program n).exec K.frame)) post after s M

variable {K}

theorem AdmitsStmt.expr {st : Stmt} (h : K.AdmitsStmt st) {e : Expr} (he : e ∈ st.exprs)
    (hscalar : e.isScalar (K.stack.map (·.1)) = true) : K.Admits e :=
  ⟨hscalar, List.Subset.trans (nodeIds_subset (st.visits_subset_of_mem_exprs e he)) h.ids⟩

theorem AdmitsStmt.block {node : Node} {body : List Stmt} (h : K.AdmitsStmt (.block node body)) :
    K.AdmitsAll body := by
  obtain ⟨hscalar, hids⟩ := h
  rw [Stmt.isScalar] at hscalar
  rw [Stmt.visits] at hids
  exact ⟨hscalar, List.Subset.trans (nodeIds_subset (List.subset_cons_self _ _)) hids⟩

theorem AdmitsStmt.ifElse {node : Node} {cond : Expr} {thenBranch elseBranch : Stmt}
    (h : K.AdmitsStmt (.ifElse node cond thenBranch elseBranch)) :
    K.Admits cond ∧ K.AdmitsStmt thenBranch ∧ K.AdmitsStmt elseBranch := by
  have hcond : cond ∈ (Stmt.ifElse node cond thenBranch elseBranch).exprs := by
    rw [Stmt.exprs]
    exact .head _
  have hids := h.ids
  have hscalar := h.scalar
  rw [Stmt.isScalar, Bool.and_eq_true, Bool.and_eq_true] at hscalar
  rw [Stmt.visits, List.append_assoc] at hids
  refine ⟨h.expr hcond hscalar.1.1, ⟨hscalar.1.2, ?_⟩, ⟨hscalar.2, ?_⟩⟩
  · refine List.Subset.trans (nodeIds_subset fun v hv => ?_) hids
    exact .tail _ (List.mem_append_right _ (List.mem_append_left _ hv))
  · refine List.Subset.trans (nodeIds_subset fun v hv => ?_) hids
    exact .tail _ (List.mem_append_right _ (List.mem_append_right _ hv))

theorem AdmitsStmt.loop {node : Node} {cond : Expr} {body : Stmt} (h : K.AdmitsStmt (.loop node cond body)) :
    K.Admits cond ∧ K.AdmitsStmt body := by
  have hcond : cond ∈ (Stmt.loop node cond body).exprs := by
    rw [Stmt.exprs]
    exact .head _
  have hids := h.ids
  have hscalar := h.scalar
  rw [Stmt.isScalar, Bool.and_eq_true] at hscalar
  rw [Stmt.visits] at hids
  refine ⟨h.expr hcond hscalar.1, ⟨hscalar.2, ?_⟩⟩
  refine List.Subset.trans (nodeIds_subset fun v hv => ?_) hids
  exact .tail _ (List.mem_append_right _ hv)

theorem AdmitsStmt.print {node : Node} {arg : Expr} (h : K.AdmitsStmt (.print node arg)) : K.Admits arg := by
  have hscalar := h.scalar
  rw [Stmt.isScalar] at hscalar
  refine h.expr ?_ hscalar
  rw [Stmt.exprs]
  exact .head _

theorem AdmitsStmt.assign {node : Node} {target : String} {value : Expr}
    (h : K.AdmitsStmt (.assign node target value)) :
    target ∈ K.stack.map (·.1) ∧ node.id ∈ K.ids ∧ K.Admits value := by
  have hids := h.ids
  have hscalar := h.scalar
  rw [Stmt.isScalar, Bool.and_eq_true] at hscalar
  rw [Stmt.visits] at hids
  refine ⟨of_decide_eq_true hscalar.1, hids (.head _), h.expr ?_ hscalar.2⟩
  rw [Stmt.exprs]
  exact .head _

theorem AdmitsAll.cons {st : Stmt} {rest : List Stmt} (h : K.AdmitsAll (st :: rest)) :
    K.AdmitsStmt st ∧ K.AdmitsAll rest := by
  obtain ⟨hscalar, hids⟩ := h
  rw [Stmt.isScalarAll, Bool.and_eq_true] at hscalar
  rw [Stmt.visitsAll] at hids
  exact ⟨⟨hscalar.1, List.Subset.trans (nodeIds_subset (List.subset_append_left _ _)) hids⟩,
    ⟨hscalar.2, List.Subset.trans (nodeIds_subset (List.subset_append_right _ _)) hids⟩⟩

mutual

/-- The code of a scalar statement meets no new variables. -/
theorem AdmitsStmt.slots : ∀ {st : Stmt} {names names' : Names} {code : Code}, K.AdmitsStmt st →
    names.slots = K.slots → (st.lower K.Γ).run names = .ok (code, names') → names'.slots = K.slots
  | .block _ _, _, _, _, h, hslots, hlower => by
      rw [Stmt.lower] at hlower
      exact h.block.slots hslots hlower
  | .ifElse .., _, _, _, h, hslots, hlower => by
      obtain ⟨_, _, names₁, _, names₂, _, hcond, hthen, helse, _⟩ := Stmt.lower_ifElse_eq_ok hlower
      have hslots₁ : (names₁.skip 0 3).slots = K.slots := (h.ifElse.1.lower hslots hcond).1
      exact h.ifElse.2.2.slots (h.ifElse.2.1.slots hslots₁ hthen) helse
  | .loop .., names, _, _, h, hslots, hlower => by
      obtain ⟨_, _, names₁, _, hcond, hbody, _⟩ := Stmt.lower_loop_eq_ok hlower
      have hslots₀ : (names.skip 0 3).slots = K.slots := hslots
      exact h.loop.2.slots (h.loop.1.lower hslots₀ hcond).1 hbody
  | .print .., _, _, _, h, hslots, hlower => by
      obtain ⟨_, _, harg, _⟩ := Stmt.lower_print_eq_ok hlower
      exact (h.print.lower hslots harg).1
  | .assign .., _, _, _, h, hslots, hlower => by
      obtain ⟨_, _, names₁, _, _, hvalue, hptr, _⟩ := Stmt.lower_assign_eq_ok hlower
      obtain ⟨htarget, hid, hadmits⟩ := h.assign
      have hslots₁ := (hadmits.lower hslots hvalue).1
      obtain ⟨_, _, _, _, _, _, rfl⟩ := K.locals.variablePtr_eq_ok hid htarget hslots₁ hptr
      exact hslots₁
  | .assignElement .., _, _, _, h, _, _ => by
      have hscalar := h.scalar
      rw [Stmt.isScalar] at hscalar
      cases hscalar

theorem AdmitsAll.slots : ∀ {ss : List Stmt} {names names' : Names} {code : Code}, K.AdmitsAll ss →
    names.slots = K.slots → (Stmt.lowerAll K.Γ ss).run names = .ok (code, names') → names'.slots = K.slots
  | [], _, _, _, _, hslots, hlower => by
      rw [Stmt.lowerAll] at hlower
      cases run_pure_eq_ok.mp hlower
      exact hslots
  | _ :: _, _, _, _, h, hslots, hlower => by
      obtain ⟨_, names₁, _, hst, hrest, _⟩ := Stmt.lowerAll_cons_eq_ok hlower
      exact h.cons.2.slots (h.cons.1.slots hslots hst) hrest

end

/-! ### The forms of statements -/

variable {node : Node}

/-- A condition that has been evaluated decides how to go on. -/
theorem Agree.test {cond : Expr} {b : Bool} {s' : Memory} {f : Nat → Bool → Exec Unit}
    (hcond : cond.EvaluatesTo K.program K.frame s (.bool b) s') (h : K.Agree (fun n => f n b) post after s' M) :
    K.Agree (fun n => (Evaluator.withFuel K.program n).eval K.frame cond >>= fun v => Exec.asBool v >>= f n)
      post after s M :=
  .after_converges (f := fun n v => Exec.asBool v >>= f n) hcond.1
    (.after_converges (x := fun _ => Exec.asBool (.bool b)) (Exec.converges_const rfl) h)

theorem runs_block {body : List Stmt} (hbody : K.RunsAll body) : K.Runs (.block node body) := by
  intro names names' code post assigned after s M hslots hlower hcheck hM hrest hsuffix
  rw [Stmt.lower] at hlower
  exact .exec (hbody hslots hlower (Stmt.effect_of_check hcheck) hM hrest hsuffix)

/-- Behind a branch of a choice the machine goes on behind the choice. -/
theorem Agree.leave {l : Label} {rest tail : Code} (h : K.Agree x (.instr (.branch l) :: rest) between s M)
    (htail : (.label l :: tail) <:+ K.code) (hsub : after ⊆ between) : K.Agree x tail after s M := by
  refine h.through (fun M' hrest => ?_) hsub
  exact ⟨M'.arrive l tail, ⟨1, Machine.steps_branch hrest K.labels htail⟩, rfl, Machine.keeps_arrive l tail⟩

theorem runs_ifElse {cond : Expr} {thenBranch elseBranch : Stmt}
    (h : K.AdmitsStmt (.ifElse node cond thenBranch elseBranch)) (hthen : K.Runs thenBranch)
    (helse : K.Runs elseBranch) : K.Runs (.ifElse node cond thenBranch elseBranch) := by
  intro names names' code post assigned after s M hslots hlower hcheck hM hrest hsuffix
  obtain ⟨_, condValue, names₁, thenCode, names₂, elseCode, hlowerCond, hlowerThen, hlowerElse, rfl⟩ :=
    Stmt.lower_ifElse_eq_ok hlower
  obtain ⟨hcondTy, _, _⟩ := Stmt.rule_of_check hcheck
  obtain ⟨afterThen, afterElse, hcheckThen, hcheckElse, rfl⟩ := Stmt.effect_of_check hcheck
  obtain ⟨hcond, hadmitsThen, _⟩ := h.ifElse
  have hslots₁ : (names₁.skip 0 3).slots = K.slots := (hcond.lower hslots hlowerCond).1
  have hslots₂ := hadmitsThen.slots hslots₁ hlowerThen
  rw [List.append_assoc] at hrest
  obtain ⟨x, s₁, M₁, hx, heval, ⟨j, hj⟩, hrest₁, hkeeps₁, hword₁⟩ :=
    simulates cond hcond hslots hlowerCond (hcond.typeOf_of_fits hcondTy) hM hrest hsuffix
  obtain ⟨b, rfl⟩ := Scalar.eq_bool hx
  have hM₁ := hM.keeps hkeeps₁ heval.2.1 heval.2.2
  have hsuffix₁ := suffix_of_rest hrest hsuffix hrest₁
  rw [Code.choice_append] at hrest₁
  rw [hrest₁] at hsuffix₁
  have hthenCode := Code.suffix_tail hsuffix₁
  have helseCode := Code.suffix_tail (Code.suffix_behind (Code.suffix_tail hthenCode))
  have hpost := Code.suffix_tail (Code.suffix_behind (Code.suffix_tail helseCode))
  refine .of_steps ⟨j, hj⟩ (.exec (.test heval ?_))
  cases b with
  | true =>
      have hstep := Machine.steps_branchIf (b := true) hrest₁ K.labels hword₁ hthenCode
      have hagree := hthen hslots₁ hlowerThen hcheckThen (hM₁.arrive ⟨"if", names₁.nextLabel⟩ _) rfl
        (Code.suffix_tail hthenCode)
      exact .of_steps ⟨1, hstep⟩ (hagree.leave hpost fun name hname => of_decide_eq_true (List.mem_filter.mp hname).2)
  | false =>
      have hstep := Machine.steps_branchIf (b := false) hrest₁ K.labels hword₁ helseCode
      have hagree := helse hslots₂ hlowerElse hcheckElse (hM₁.arrive ⟨"if", names₁.nextLabel + 1⟩ _) rfl
        (Code.suffix_tail helseCode)
      exact .of_steps ⟨1, hstep⟩ (hagree.leave hpost (List.filter_subset_self _))

theorem runs_print {arg : Expr} (h : K.AdmitsStmt (.print node arg)) : K.Runs (.print node arg) := by
  intro names names' code post assigned after s M hslots hlower hcheck hM hrest hsuffix
  obtain ⟨_, argValue, hlowerArg, rfl⟩ := Stmt.lower_print_eq_ok hlower
  have hargTy : arg.Fits K.Γ assigned .int := Stmt.rule_of_check hcheck
  obtain rfl := Stmt.effect_of_check hcheck
  rw [List.append_assoc] at hrest
  obtain ⟨x, s₁, M₁, hx, heval, ⟨j, hj⟩, hrest₁, hkeeps₁, hword₁⟩ :=
    simulates arg h.print hslots hlowerArg (h.print.typeOf_of_fits hargTy) hM hrest hsuffix
  obtain ⟨n, rfl⟩ := Scalar.eq_int hx
  have hM₁ := hM.keeps hkeeps₁ heval.2.1 heval.2.2
  have hconv : Exec.Converges (fun k => (Evaluator.withFuel K.program k).execForm K.program K.frame (.print node arg))
      s () { s₁ with output := s₁.output ++ [n] } :=
    heval.1.bind (Exec.converges_const rfl)
  exact .inl ⟨_, _, hconv.exec, ⟨_, hj.trans (Machine.steps_print hrest₁ hword₁)⟩, rfl, hM₁.print n post⟩

theorem runs_assign {target : String} {value : Expr} (h : K.AdmitsStmt (.assign node target value)) :
    K.Runs (.assign node target value) := by
  intro names names' code post assigned after s M hslots hlower hcheck hM hrest hsuffix
  obtain ⟨_, operand, names₁, _, ptr, hlowerValue, hptr, rfl⟩ := Stmt.lower_assign_eq_ok hlower
  obtain ⟨htarget, hid, hadmits⟩ := h.assign
  obtain ⟨i, b, hi, hb, rfl, rfl, rfl⟩ :=
    K.locals.variablePtr_eq_ok hid htarget (hadmits.lower hslots hlowerValue).1 hptr
  obtain ⟨b', hb', hvalueTy⟩ := Stmt.rule_of_check hcheck
  cases hb.symm.trans hb'
  obtain ⟨b', hb', rfl⟩ := Stmt.effect_of_check hcheck
  cases hb.symm.trans hb'
  rw [List.append_nil, List.append_assoc] at hrest
  obtain ⟨x, s₁, M₁, hx, heval, ⟨j, hj⟩, hrest₁, hkeeps₁, hword₁⟩ :=
    simulates value hadmits hslots hlowerValue (hadmits.typeOf_of_fits hvalueTy) hM hrest hsuffix
  have hM₁ := hM.keeps hkeeps₁ heval.2.1 heval.2.2
  obtain ⟨_, hfind, hcell, _⟩ := hM₁.value i _ hi
  have hwrite : (Exec.write K.program K.frame target x.datum).run s₁ =
      .ok () { s₁ with vars := s₁.vars.insert target (some x.datum) } := by
    simp only [Exec.write, EStateM.run_bind, EStateM.run_get, hfind]
    rfl
  have hconv : Exec.Converges
      (fun k => (Evaluator.withFuel K.program k).execForm K.program K.frame (.assign node target value)) s ()
      { s₁ with vars := s₁.vars.insert target (some x.datum) } :=
    heval.1.bind (Exec.converges_const hwrite)
  have hlt : i < M₁.cells.length := (List.getElem?_eq_some_iff.mp hcell).1
  rw [hx] at hword₁
  have hstep := Machine.steps_store (C := K.code) hrest₁ (hM₁.address i _ hi) hword₁ hlt
  exact .inl ⟨_, _, hconv.exec, ⟨_, hj.trans hstep⟩, rfl, hM₁.write K.locals.nodup hi hx post⟩

/-- One iteration of a loop leads to its end, never ends, or leads to the next one. -/
theorem runs_loop {cond : Expr} {body : Stmt} (h : K.AdmitsStmt (.loop node cond body)) (hbody : K.Runs body) :
    K.Runs (.loop node cond body) := by
  intro names names' code post assigned after s M hslots hlower hcheck hM hrest hsuffix
  obtain ⟨condCode, condValue, names₁, bodyCode, hlowerCond, hlowerBody, rfl⟩ := Stmt.lower_loop_eq_ok hlower
  obtain ⟨hcondTy, afterBody, hcheckBody⟩ := Stmt.rule_of_check hcheck
  obtain rfl := Stmt.effect_of_check hcheck
  obtain ⟨hcond, _⟩ := h.loop
  have hslots₀ : (names.skip 0 3).slots = K.slots := hslots
  have hslots₁ := (hcond.lower hslots₀ hlowerCond).1
  rw [Code.cycle_append] at hrest
  rw [hrest] at hsuffix
  have hagain := Code.suffix_tail hsuffix
  have hchoice := Code.suffix_behind (Code.suffix_tail hagain)
  have hbodyCode := Code.suffix_tail hchoice
  have hback := Code.suffix_behind (Code.suffix_tail hbodyCode)
  have hpost := Code.suffix_tail hback
  refine .of_steps ⟨1, Machine.steps_branch hrest K.labels hagain⟩ ?_
  refine Agree.iterate (fun s M =>
    M.rest = Code.again names.nextLabel condCode condValue.operand bodyCode post ∧
      Matches K.stack after K.base s M) (fun s => ⟨s, rfl⟩) ?_ _ _
    ⟨rfl, hM.arrive _ _⟩
  rintro s M ⟨hrest, hM⟩
  obtain ⟨x, s₁, M₁, hx, heval, ⟨j, hj⟩, hrest₁, hkeeps₁, hword₁⟩ :=
    simulates cond hcond hslots₀ hlowerCond (hcond.typeOf_of_fits hcondTy) hM hrest
      (hrest ▸ Code.suffix_tail hagain)
  obtain ⟨b, rfl⟩ := Scalar.eq_bool hx
  have hM₁ := hM.keeps hkeeps₁ heval.2.1 heval.2.2
  cases b with
  | false =>
      have hsteps := hj.trans (Machine.steps_branchIf (b := false) hrest₁ K.labels hword₁ hpost)
      refine .inl (.of_steps ⟨_, hsteps⟩ (.exec (.test heval ?_)))
      exact .inl ⟨s₁, _, Exec.converges_const rfl, ⟨0, .refl _⟩, rfl,
        hM₁.arrive _ _⟩
  | true =>
      have hsteps := hj.trans (Machine.steps_branchIf (b := true) hrest₁ K.labels hword₁ hbodyCode)
      have hagree := hbody hslots₁ hlowerBody hcheckBody (hM₁.arrive ⟨"loop", names.nextLabel + 1⟩ _) rfl
        (Code.suffix_tail hbodyCode)
      rcases hagree with ⟨s₂, M₂, hconv₂, ⟨k, hk⟩, hrest₂, hM₂⟩ | ⟨hdiv, hendless⟩
      · right
        have hnext := Machine.steps_branch hrest₂ K.labels hagain
        refine ⟨s₂, _, ⟨rfl, ?_⟩, ⟨_, (hsteps.trans hk).trans hnext⟩, fun n hn => ?_, fun hagree => ?_⟩
        · exact (hM₂.arrive _ _).forget (body.assigned_subset hcheckBody)
        · refine Exec.exhausted_bind_of_ok (heval.1.otherwise n) ?_
          refine Exec.exhausted_bind_of_ok (x := Exec.asBool (.bool true)) (v := true) (.inl rfl) ?_
          exact Exec.exhausted_bind_of_ok (hconv₂.otherwise n) hn
        · refine .of_steps ⟨_, (hsteps.trans hk).trans hnext⟩ (.exec (.test heval ?_))
          exact .after_converges (f := fun n _ => (Evaluator.withFuel K.program n).exec K.frame (.loop node cond body))
            hconv₂ hagree
      · refine .inl (.of_steps ⟨_, hsteps⟩ (.exec (.test heval (.inr ⟨?_, hendless⟩))))
        exact hdiv.bind (f := fun n _ => (Evaluator.withFuel K.program n).exec K.frame (.loop node cond body))

theorem runsAll_nil : K.RunsAll [] := by
  intro names names' code post assigned after s M hslots hlower hcheck hM hrest hsuffix
  rw [Stmt.lowerAll] at hlower
  cases run_pure_eq_ok.mp hlower
  rw [Stmt.checkAll] at hcheck
  obtain rfl := pure_eq_ok.mp hcheck
  exact .inl ⟨s, M, Exec.converges_const rfl, ⟨0, .refl M⟩, hrest, hM⟩

theorem runsAll_cons {st : Stmt} {rest : List Stmt} (h : K.AdmitsAll (st :: rest)) (hst : K.Runs st)
    (hrest : K.RunsAll rest) : K.RunsAll (st :: rest) := by
  intro names names' code post assigned after s M hslots hlower hcheck hM hcode hsuffix
  obtain ⟨_, names₁, _, hlowerFirst, hlowerRest, rfl⟩ := Stmt.lowerAll_cons_eq_ok hlower
  obtain ⟨_, hcheckFirst, hcheckRest⟩ := Stmt.checkAll_cons_eq_ok hcheck
  rw [List.append_assoc] at hcode
  refine (hst hslots hlowerFirst hcheckFirst hM hcode hsuffix).bind fun s' M' hcode' hM' => ?_
  exact hrest (h.cons.1.slots hslots hlowerFirst) hlowerRest hcheckRest hM' hcode'
    (suffix_of_rest hcode hsuffix hcode')

mutual

theorem runs : ∀ (st : Stmt), K.AdmitsStmt st → K.Runs st
  | .block _ body, h => runs_block (runsAll body h.block)
  | .ifElse _ _ thenBranch elseBranch, h =>
      runs_ifElse h (runs thenBranch h.ifElse.2.1) (runs elseBranch h.ifElse.2.2)
  | .loop _ _ body, h => runs_loop h (runs body h.loop.2)
  | .print .., h => runs_print h
  | .assign .., h => runs_assign h
  | .assignElement .., h => by
      have hscalar := h.scalar
      rw [Stmt.isScalar] at hscalar
      cases hscalar

theorem runsAll : ∀ (ss : List Stmt), K.AdmitsAll ss → K.RunsAll ss
  | [], _ => runsAll_nil
  | st :: rest, h => runsAll_cons h (runs st h.cons.1) (runsAll rest h.cons.2)

end

/-- The statements of a method and its result are evaluated and returned, or the statements never come to an end. -/
theorem finishes {body : List Stmt} {result : Expr} (hbody : K.AdmitsAll body) (hresult : K.Admits result)
    {names names₁ names₂ : Names} {bodyCode resultCode : Code} {value : Value} {ty : Ty}
    (hslots : names.slots = K.slots)
    (hlowerBody : (Stmt.lowerAll K.Γ body).run names = .ok (bodyCode, names₁))
    (hlowerResult : (result.lower K.Γ).run names₁ = .ok ((resultCode, value), names₂))
    (hcheck : Stmt.checkAll K.Γ [] body = .ok after) (hty : result.typeOf K.Γ after = .ok ty)
    (hM : Matches K.stack [] K.base s M)
    (hrest : M.rest = bodyCode ++ (resultCode ++ [.instr (.ret ty.ir value.operand)])) (hsuffix : M.rest <:+ K.code) :
    (∃ (x : Scalar) (s₁ s₂ : Memory) (L : List (BitVec 32)), x.ty = ty ∧
        Exec.Converges (fun n => body.forM ((Evaluator.withFuel K.program n).exec K.frame)) s () s₁ ∧
        result.EvaluatesTo K.program K.frame s₁ x s₂ ∧ s₂.output = K.base ++ L ∧
        ∃ n, M.run K.code n = some (x.word, L)) ∨
      Exec.Diverges (fun n => body.forM ((Evaluator.withFuel K.program n).exec K.frame)) s ∧ M.Endless K.code := by
  rcases runsAll body hbody hslots hlowerBody hcheck hM hrest hsuffix with ⟨s₁, M₁, hconv, ⟨j, hj⟩, hrest₁, hM₁⟩ | hdiv
  · left
    obtain ⟨x, s₂, M₂, rfl, heval, ⟨k, hk⟩, hrest₂, hkeeps, hword⟩ :=
      simulates result hresult (hbody.slots hslots hlowerBody) hlowerResult hty hM₁ hrest₁
        (suffix_of_rest hrest hsuffix hrest₁)
    have houtput := (hM₁.keeps hkeeps heval.2.1 heval.2.2).output
    refine ⟨x, s₁, s₂, M₂.output, rfl, hconv, heval, houtput, j + k + 1, ?_⟩
    rw [(hj.trans hk).run 1, Machine.run, Machine.step_instr hrest₂]
    simp only [Machine.perform, hword, Option.bind_eq_bind, Option.bind_some]
    rfl
  · exact .inr hdiv

end Setting

namespace Machine

variable {C rest post : Code} {M : Machine} {vars : List (String × Option Word)} {name : String}

/-- Named variables are kept in the stack cells of a machine, in order. -/
structure Stored (vars : List (String × Option Word)) (M : Machine) : Prop where
  cells : M.cells = vars.map (·.2)
  address : ∀ (i : Nat) e, vars[i]? = some e → M.regs (.named e.1) = some (.address i)

/-- A machine that has made room for a variable. -/
def allot (M : Machine) (name : String) (rest : Code) : Machine :=
  { M.define (.named name) (.address M.cells.length) with rest := rest, cells := M.cells ++ [none] }

theorem steps_alloca {ty : IrTy} (h : M.rest = .instr (.alloca (.named name) ty) :: rest) :
    Steps C 1 M (M.allot name rest) := by
  apply Steps.single
  rw [step_instr h]
  rfl

theorem regs_allot {r : Reg} (h : r ≠ .named name) : (M.allot name rest).regs r = M.regs r :=
  if_neg h

theorem Stored.length_cells (h : Stored vars M) : M.cells.length = vars.length := by
  rw [h.cells, List.length_map]

theorem Stored.allot (h : Stored vars M) (hname : name ∉ vars.map (·.1)) (rest : Code) :
    Stored (vars ++ [(name, none)]) (M.allot name rest) := by
  constructor
  · rw [List.map_append, ← h.cells]
    rfl
  · intro i e he
    by_cases hi : i < vars.length
    · rw [List.getElem?_append_left hi] at he
      have hne : Reg.named e.1 ≠ .named name := by
        rintro ⟨⟩
        exact hname (List.mem_map_of_mem (List.mem_of_getElem? he))
      rw [regs_allot hne]
      exact h.address i e he
    · have hlt := (List.getElem?_eq_some_iff.mp he).1
      rw [List.length_append, List.length_singleton] at hlt
      obtain rfl : i = vars.length := by omega
      rw [List.getElem?_concat_length] at he
      cases he
      rw [← h.length_cells]
      exact if_pos rfl

/-- The last variable gets a value. -/
theorem Stored.fill (h : Stored (vars ++ [(name, none)]) M) (w : Word) (rest : Code) :
    Stored (vars ++ [(name, some w)]) { M with rest := rest, cells := M.cells.set vars.length (some w) } := by
  constructor
  · rw [h.cells, List.map_append, List.map_append, List.set_append_right _ _ (Nat.le_of_eq (List.length_map _)),
      List.length_map, Nat.sub_self]
    rfl
  · intro i e he
    have hlt := (List.getElem?_eq_some_iff.mp he).1
    rw [List.length_append, List.length_singleton] at hlt
    by_cases hi : i < vars.length
    · rw [List.getElem?_append_left hi] at he
      exact h.address i e ((List.getElem?_append_left hi).trans he)
    · obtain rfl : i = vars.length := by omega
      rw [List.getElem?_concat_length] at he
      cases he
      exact h.address vars.length (name, none) List.getElem?_concat_length

/-- A parameter is stored with the value of its argument. -/
theorem steps_formal {f : VarDecl} {x : Scalar} (hrest : M.rest = Code.ofInstrs (formalInstrs [f]) ++ post)
    (hM : Stored vars M) (hnew : f.name ∉ vars.map (·.1)) (hf : IsIdentifier f.name) (hty : x.ty = f.ty)
    (hregs : M.regs (.param f.name) = some x.word) :
    ∃ M', (∃ k, Steps C k M M') ∧ M'.rest = post ∧ M'.output = M.output ∧
      Stored (vars ++ [(f.name, some x.word)]) M' ∧ ∀ name, M'.regs (.param name) = M.regs (.param name) := by
  have hparam : ∀ name, Reg.param name ≠ .named f.name := fun name heq => hf.ne_dot name (Reg.named.inj heq).symm
  have hstored := hM.allot hnew (.instr (.store f.ty.ir (.reg (.param f.name)) (.reg (.named f.name))) :: post)
  have haddress := hstored.address vars.length _ List.getElem?_concat_length
  have hlt : vars.length < (M.cells ++ [none]).length := by
    rw [List.length_append, hM.length_cells]
    exact Nat.lt_succ_self _
  have hword : ∀ rest, (Operand.reg (.param f.name)).word? (M.allot f.name rest).regs f.ty.ir = some x.word := by
    intro rest
    rw [Operand.word?, regs_allot (hparam f.name), hregs, Option.filter_some, if_pos (hty ▸ x.fits_word)]
  have hsteps := (steps_alloca (C := C) hrest).trans (steps_store rfl haddress (hword _) hlt)
  exact ⟨_, ⟨_, hsteps⟩, rfl, rfl, hstored.fill x.word post, fun name => if_neg (hparam name)⟩

/-- Parameters are stored one by one. -/
theorem steps_formals : ∀ {es : List (VarDecl × Scalar)} {vars : List (String × Option Word)} {M : Machine},
    M.rest = Code.ofInstrs (formalInstrs (es.map (·.1))) ++ post → Stored vars M →
    (vars.map (·.1) ++ es.map (·.1.name)).Nodup → (∀ e ∈ es, IsIdentifier e.1.name) →
    (∀ e ∈ es, e.2.ty = e.1.ty ∧ M.regs (.param e.1.name) = some e.2.word) →
    ∃ M', (∃ k, Steps C k M M') ∧ M'.rest = post ∧ M'.output = M.output ∧
      Stored (vars ++ es.map fun e => (e.1.name, some e.2.word)) M'
  | [], vars, M, hrest, hM, _, _, _ => ⟨M, ⟨0, .refl M⟩, hrest, rfl, by rwa [List.map_nil, List.append_nil]⟩
  | (f, x) :: es, vars, M, hrest, hM, hnodup, hidentifier, hargs => by
      obtain ⟨⟨hty, hregs⟩, hargs⟩ := List.forall_mem_cons.mp hargs
      obtain ⟨hf, hidentifier⟩ := List.forall_mem_cons.mp hidentifier
      have hnew : f.name ∉ vars.map (·.1) := fun hmem =>
        (List.nodup_append.mp hnodup).2.2 _ hmem _ (.head _) rfl
      obtain ⟨M₁, ⟨j, hj⟩, hrest₁, houtput₁, hM₁, hregs₁⟩ := steps_formal (C := C) hrest hM hnew hf hty hregs
      have hnodup' : ((vars ++ [(f.name, some x.word)]).map (·.1) ++ es.map (·.1.name)).Nodup := by
        rw [List.map_append, List.append_assoc]
        exact hnodup
      obtain ⟨M₂, ⟨k, hk⟩, hrest₂, houtput₂, hM₂⟩ := steps_formals hrest₁ hM₁ hnodup' hidentifier
        fun e he => ⟨(hargs e he).1, (hregs₁ _).trans (hargs e he).2⟩
      refine ⟨M₂, ⟨_, hj.trans hk⟩, hrest₂, houtput₂.trans houtput₁, ?_⟩
      rw [List.append_assoc] at hM₂
      exact hM₂

/-- Local variables are given room one by one. -/
theorem steps_locals : ∀ {ls : List VarDecl} {vars : List (String × Option Word)} {M : Machine},
    M.rest = Code.ofInstrs (localInstrs ls) ++ post → Stored vars M → (vars.map (·.1) ++ ls.map (·.name)).Nodup →
    ∃ M', (∃ k, Steps C k M M') ∧ M'.rest = post ∧ M'.output = M.output ∧
      Stored (vars ++ ls.map fun l => (l.name, none)) M'
  | [], vars, M, hrest, hM, _ => ⟨M, ⟨0, .refl M⟩, hrest, rfl, by rwa [List.map_nil, List.append_nil]⟩
  | l :: ls, vars, M, hrest, hM, hnodup => by
      have hnew : l.name ∉ vars.map (·.1) := fun hmem =>
        (List.nodup_append.mp hnodup).2.2 _ hmem _ (.head _) rfl
      have hnodup' : ((vars ++ [(l.name, (none : Option Word))]).map (·.1) ++ ls.map (·.name)).Nodup := by
        rw [List.map_append, List.append_assoc]
        exact hnodup
      obtain ⟨M', ⟨k, hk⟩, hrest', houtput, hM'⟩ := steps_locals rfl (hM.allot hnew _) hnodup'
      refine ⟨M', ⟨_, (steps_alloca (C := C) hrest).trans hk⟩, hrest', houtput, ?_⟩
      rw [List.append_assoc] at hM'
      exact hM'

end Machine

/-! ### Methods -/

namespace MethodDecl

variable {a : Analysis} {p : Program} {c : ClassDecl} {m : MethodDecl} {args : List Scalar}

/-- The variables of a method that is called with scalars, with their first values. -/
def start (m : MethodDecl) (args : List Scalar) : List ((String × VarBinding) × Option Scalar) :=
  ((m.formals.zip args).map fun e => (e.1.bind .param, some e.2)) ++ m.locals.map fun l => (l.bind .local, none)

theorem formals_eq (hargs : args.map Scalar.ty = m.formals.map (·.ty)) :
    (m.formals.zip args).map (·.1) = m.formals := by
  have hlength := congrArg List.length hargs
  rw [List.length_map, List.length_map] at hlength
  exact List.map_fst_zip (Nat.le_of_eq hlength.symm)

theorem start_vars (hargs : args.map Scalar.ty = m.formals.map (·.ty)) : (m.start args).map (·.1) = m.stack := by
  have hformals : (m.formals.zip args).map (fun e => e.1.bind .param) = m.formals.map (·.bind .param) := by
    rw [← formals_eq hargs, List.map_map, formals_eq hargs]
    rfl
  rw [start, List.map_append, List.map_map, List.map_map, stack, ← hformals]
  rfl

theorem entries_vars : (m.vars (args.map Scalar.datum)).entries =
    (m.start args).map fun e => (e.1.1, e.2.map Scalar.datum) := by
  rw [vars, start, List.map_append, List.map_map, List.map_map, List.zip_map_right, List.map_map]
  rfl

theorem names_stack (m : MethodDecl) : m.stack.map (·.1) = m.stackVars.map (·.name) := by
  rw [stack, stackVars, List.map_append, List.map_append, List.map_map, List.map_map]
  rfl

theorem ty_of_mem_zip (hargs : args.map Scalar.ty = m.formals.map (·.ty)) {f : VarDecl} {x : Scalar}
    (hmem : (f, x) ∈ m.formals.zip args) : x.ty = f.ty := by
  obtain ⟨i, hi⟩ := List.getElem?_of_mem hmem
  obtain ⟨hf, hx⟩ := List.getElem?_zip_eq_some.mp hi
  have hty := congrArg (·[i]?) hargs
  simp only [List.getElem?_map, hf, hx, Option.map_some] at hty
  exact Option.some.inj hty

theorem ty_of_mem_start (hargs : args.map Scalar.ty = m.formals.map (·.ty)) {e : (String × VarBinding) × Option Scalar}
    (he : e ∈ m.start args) : (∀ y, e.2 = some y → y.ty = e.1.2.ty) ∧ (e.2 = none → e.1.2.storage = .local) := by
  rcases List.mem_append.mp he with he | he
  · obtain ⟨⟨f, x⟩, hmem, rfl⟩ := List.mem_map.mp he
    refine ⟨?_, nofun⟩
    rintro _ ⟨⟩
    exact ty_of_mem_zip hargs hmem
  · obtain ⟨l, _, rfl⟩ := List.mem_map.mp he
    exact ⟨nofun, fun _ => rfl⟩

/-- The parameters of a function hold the arguments of its call. -/
theorem regs_enter (hargs : args.map Scalar.ty = m.formals.map (·.ty)) (hnodup : m.regNames.Nodup) (C : String)
    (code : Code) (this : Word) {f : VarDecl} {x : Scalar} (hmem : (f, x) ∈ m.formals.zip args) :
    (IrFunction.enter ⟨.ofMethod (m.signature C), code⟩ (this :: args.map Scalar.word)).regs (.param f.name) =
      some x.word := by
  have hparams : (Reg.this :: m.formals.map fun f => Reg.param f.name).Nodup := by
    have hregs := hnodup.map (f := Reg.named) fun _ _ => Reg.named.inj
    rw [← m.params_append_results C code, m.params_eq] at hregs
    exact hregs.of_append_left
  have hlength : m.formals.length = args.length := by
    have hlength := congrArg List.length hargs
    rw [List.length_map, List.length_map] at hlength
    exact hlength.symm
  change ((IrFunction.params _).zip _).lookup _ = _
  rw [m.params_eq]
  apply lookup_of_mem (e := (Reg.param f.name, x.word))
  · rw [List.map_fst_zip]
    · exact hparams
    · simp only [List.length_cons, List.length_map]
      omega
  · rw [List.zip_cons_cons, List.zip_map]
    exact .tail _ (List.mem_map.mpr ⟨(f, x), hmem, rfl⟩)

theorem exists_start (hargs : args.map Scalar.ty = m.formals.map (·.ty)) {i : Nat} {e : String × VarBinding}
    (he : m.stack[i]? = some e) : ∃ x, (m.start args)[i]? = some (e, x) := by
  rw [← start_vars hargs, List.getElem?_map] at he
  obtain ⟨⟨_, x⟩, hx, rfl⟩ := Option.map_eq_some_iff.mp he
  exact ⟨x, hx⟩

/-- A machine that has stored the arguments of a call matches the variables of the method. -/
theorem matches_start (hargs : args.map Scalar.ty = m.formals.map (·.ty)) (hnodup : (m.stack.map (·.1)).Nodup)
    {M : Machine} (hM : M.Stored ((m.start args).map fun e => (e.1.1, e.2.map Scalar.word))) (houtput : M.output = [])
    (s : Memory) : Matches m.stack [] s.output { s with vars := m.vars (args.map Scalar.datum) } M := by
  refine ⟨fun i e he => ?_, fun i e he => ?_, ?_⟩
  · obtain ⟨x, hx⟩ := exists_start hargs he
    exact hM.address i (e.1, x.map Scalar.word) (by rw [List.getElem?_map, hx]; rfl)
  · obtain ⟨x, hx⟩ := exists_start hargs he
    have hmem := List.mem_of_getElem? hx
    obtain ⟨hty, hlocal⟩ := ty_of_mem_start hargs hmem
    refine ⟨x, ?_, ?_, hty, fun hnone => ⟨hlocal hnone, List.not_mem_nil⟩⟩
    · change (m.vars (args.map Scalar.datum)).entries.lookup e.1 = _
      rw [entries_vars]
      apply lookup_of_mem (e := (e.1, x.map Scalar.datum))
      · rw [List.map_map]
        rw [← start_vars hargs, List.map_map] at hnodup
        exact hnodup
      · exact List.mem_map.mpr ⟨(e, x), hmem, rfl⟩
    · rw [hM.cells, List.map_map, List.getElem?_map, hx]
      rfl
  · rw [houtput, List.append_nil]

/-- At the first line of a method's body every variable has its cell, and parameters have their values. -/
theorem exists_matches (hargs : args.map Scalar.ty = m.formals.map (·.ty)) (hnodup : (m.stackVars.map (·.name)).Nodup)
    (hidentifier : ∀ v ∈ m.stackVars, IsIdentifier v.name) (C : String) {code post : Code}
    (hcode : code = Code.ofInstrs m.prologue ++ post) (this : Word) (s : Memory) :
    ∃ M, (∃ k, Machine.Steps code k
        (IrFunction.enter ⟨.ofMethod (m.signature C), code⟩ (this :: args.map Scalar.word)) M) ∧ M.rest = post ∧
      Matches m.stack [] s.output { s with vars := m.vars (args.map Scalar.datum) } M := by
  have hregs := m.nodup_regNames hnodup hidentifier
  have hnames : ((m.formals.zip args).map (·.1.name)) = m.formals.map (·.name) := by
    rw [← formals_eq hargs, List.map_map, formals_eq hargs]
    rfl
  have hstack : (m.stack.map (·.1)).Nodup := by rwa [names_stack]
  rw [stackVars, List.map_append] at hnodup
  have hrest : (IrFunction.enter ⟨.ofMethod (m.signature C), code⟩ (this :: args.map Scalar.word)).rest =
      Code.ofInstrs (formalInstrs ((m.formals.zip args).map (·.1))) ++
        (Code.ofInstrs (localInstrs m.locals) ++ post) := by
    rw [formals_eq hargs, ← List.append_assoc, ← Code.ofInstrs_append]
    exact hcode
  have hstored :
      Machine.Stored [] (IrFunction.enter ⟨.ofMethod (m.signature C), code⟩ (this :: args.map Scalar.word)) := by
    refine ⟨rfl, fun _ _ h => ?_⟩
    cases h
  obtain ⟨M₁, ⟨j, hj⟩, hrest₁, houtput₁, hM₁⟩ := Machine.steps_formals (C := code) hrest hstored
    (by rw [hnames]; exact hnodup.of_append_left)
    (fun e he => hidentifier e.1 (List.mem_append_left _ (List.of_mem_zip he).1))
    (fun e he => ⟨ty_of_mem_zip hargs he, regs_enter hargs hregs C code this he⟩)
  obtain ⟨M₂, ⟨k, hk⟩, hrest₂, houtput₂, hM₂⟩ := Machine.steps_locals (C := code) hrest₁ hM₁ (by
    rw [List.nil_append, List.map_map]
    exact hnames ▸ hnodup)
  refine ⟨M₂, ⟨_, hj.trans hk⟩, hrest₂, matches_start hargs hstack ?_ (houtput₂.trans houtput₁) s⟩
  rw [start, List.map_append, List.map_map, List.map_map]
  exact hM₂

/-- The variables of a checked method that computes with scalars. -/
theorem locals_of_isScalar (hp : p.Accepted a) (hc : c ∈ p.classes) (hm : m ∈ c.methods) (hscalar : m.isScalar = true) :
    Locals ⟨a, some c.name⟩ (nodeIds m.visits) m.stack m.startNames.slots := by
  have hids := nodup_stackVars (Program.nodup_method hp.nodup hc hm)
  have hnodup : (m.stack.map (·.1)).Nodup := by
    rw [names_stack]
    exact (of_checkDecl (Program.checkDecl_of_check hp.checked hc hm)).2.1
  have hvar : ∀ e ∈ m.stack, ∃ v ∈ m.stackVars, ∃ storage, storage ≠ .field ∧ e = v.bind storage := by
    intro e he
    rcases List.mem_append.mp he with he | he
    · obtain ⟨v, hv, rfl⟩ := List.mem_map.mp he
      exact ⟨v, List.mem_append_left _ hv, .param, nofun, rfl⟩
    · obtain ⟨v, hv, rfl⟩ := List.mem_map.mp he
      exact ⟨v, List.mem_append_right _ hv, .local, nofun, rfl⟩
  rw [isScalar, Bool.and_eq_true, Bool.and_eq_true, List.all_eq_true] at hscalar
  refine ⟨hnodup, fun e he => ?_, fun e he => ?_, fun e he => ?_, fun id hid e he => ?_⟩
  · obtain ⟨v, hv, _, _, rfl⟩ := hvar e he
    exact hscalar.1.1 v hv
  · obtain ⟨v, _, _, hstorage, rfl⟩ := hvar e he
    exact hstorage
  · obtain ⟨v, hv, _, _, rfl⟩ := hvar e he
    exact lookup_startNames hids hv
  · rw [hp.describes.resolve? hp.nodup hc hm hid]
    change (m.stack.lookup e.1).or _ = _
    rw [lookup_of_mem hnodup he]
    rfl

/-- A call of a checked method that computes with scalars and a call of its function come to the same end, or
neither of them ends. -/
theorem call_agrees (hp : p.Accepted a) (hc : c ∈ p.classes) (hm : m ∈ c.methods) (hscalar : m.isScalar = true)
    (hidentifier : ∀ v ∈ m.stackVars, IsIdentifier v.name) {f : IrFunction} (hf : m.lower a c.name = .ok f)
    (hargs : args.map Scalar.ty = m.formals.map (·.ty)) (this : Word) (receiver : Option Nat) (s : Memory) :
    (∃ (x : Scalar) (s' : Memory) (L : List (BitVec 32)), x.ty = m.returnType ∧ Exec.Converges
        (fun n => (Evaluator.withFuel p n).call ⟨some c.name, receiver⟩ m (args.map Scalar.datum)) s x.datum s' ∧
        s'.output = s.output ++ L ∧ f.Returns (this :: args.map Scalar.word) x.word L) ∨
      Exec.Diverges (fun n => (Evaluator.withFuel p n).call ⟨some c.name, receiver⟩ m (args.map Scalar.datum)) s ∧
        (f.enter (this :: args.map Scalar.word)).Endless f.code := by
  have hlabels : f.code.labels.Nodup := .of_map _ (controlFlow hf).labels
  have hlocals := locals_of_isScalar hp hc hm hscalar
  obtain ⟨bodyCode, names₁, resultCode, result, names₂, hbody, hresult, rfl⟩ :=
    m.code_of_lower (nodup_stackVars (Program.nodup_method hp.nodup hc hm)) hf
  obtain ⟨after, hcheckBody, hresultTy⟩ := checkBody_eq_ok.mp ((Program.check_eq_ok.mp hp.checked).2.2 c hc m hm)
  obtain ⟨hbodyIds, hresultIds⟩ := m.nodeIds_subset
  let K : Setting := ⟨_, _, _, _, hlocals, _, hlabels, p, ⟨some c.name, receiver⟩, s.output⟩
  rw [isScalar, Bool.and_eq_true, Bool.and_eq_true, ← names_stack] at hscalar
  have hbodyScalar : K.AdmitsAll m.body := ⟨hscalar.1.2, hbodyIds⟩
  have hresultScalar : K.Admits m.result := ⟨hscalar.2, hresultIds⟩
  have hcode : Code.ofInstrs m.prologue ++ (bodyCode ++ resultCode) ++ [.instr (.ret m.returnType.ir result.operand)] =
      Code.ofInstrs m.prologue ++ (bodyCode ++ (resultCode ++ [.instr (.ret m.returnType.ir result.operand)])) := by
    rw [List.append_assoc, List.append_assoc]
  obtain ⟨M, ⟨j, hj⟩, hrest, hM⟩ := m.exists_matches hargs
    (of_checkDecl (Program.checkDecl_of_check hp.checked hc hm)).2.1 hidentifier c.name hcode this s
  have hsuffix : M.rest <:+ K.code := by
    rw [hrest]
    exact ⟨_, hcode.symm⟩
  rcases K.finishes hbodyScalar hresultScalar rfl hbody hresult hcheckBody (hresultScalar.typeOf_of_fits hresultTy) hM
    hrest hsuffix with ⟨x, s₁, s₂, L, hx, hconv, heval, houtput, n, hrun⟩ | ⟨hdiv, hendless⟩
  · refine .inl ⟨x, { s₂ with vars := s.vars }, L, hx, ?_, houtput, j + n, (hj.run n).trans hrun⟩
    refine .bind (x := fun _ => get) (v := s) (Exec.converges_const rfl) (.bind (Exec.converges_const rfl) ?_)
    exact hconv.bind (heval.1.bind (Exec.converges_const rfl))
  · refine .inr ⟨?_, .of_steps hj hendless⟩
    refine Exec.Converges.bind_diverges (x := fun _ => get) (v := s) (Exec.converges_const rfl) ?_
    exact Exec.Converges.bind_diverges (Exec.converges_const rfl) hdiv.bind

end MethodDecl

namespace Scalar

theorem datum_injective {x y : Scalar} (h : x.datum = y.datum) : x = y := by
  cases x <;> cases y <;> cases h <;> rfl

theorem word_injective {x y : Scalar} (h : x.word = y.word) : x = y := by
  cases x with
  | int m =>
      cases y with
      | int n =>
          cases h
          rfl
      | bool c => cases h
  | bool b =>
      cases y with
      | int n => cases h
      | bool c =>
          revert h
          cases b <;> cases c <;> decide

end Scalar

/-- A method that computes with numbers and truth values is lowered to a function that computes the same. This function
is the one that stands under the method's name in the text that the program is compiled to. For all arguments, objects
and memories, a call of the method comes to its end with some output and some result exactly
if the function returns this result with this output. No other results are possible on either side. -/
theorem scalar_call_iff {source : String} {p : Program} {a : Analysis} (hparse : parse source = .ok p)
    (ha : Analysis.ofProgram p = .ok a) (hcheck : p.check a = .ok ()) {c : ClassDecl} (hc : c ∈ p.classes)
    {m : MethodDecl} (hm : m ∈ c.methods) (hscalar : m.isScalar = true) :
    ∃ M T, p.lower a = .ok M ∧ compile source = .ok M.render ∧ IrText.read? M.render = some T ∧
      ∃ f ∈ M.functions, m.lower a c.name = .ok f ∧ T.Defines ("@" ++ c.name ++ "." ++ m.name) f ∧
      ∀ args : List Scalar, args.map Scalar.ty = m.formals.map (·.ty) →
      ∀ (this : Word) (receiver : Option Nat) (s : Memory),
        (∀ (v : Scalar) (L : List (BitVec 32)),
          (∃ fuel s', ((Evaluator.withFuel p fuel).call ⟨some c.name, receiver⟩ m (args.map Scalar.datum)).run s =
              .ok v.datum s' ∧ s'.output = s.output ++ L) ↔
            f.Returns (this :: args.map Scalar.word) v.word L) ∧
        (∀ fuel d s', ((Evaluator.withFuel p fuel).call ⟨some c.name, receiver⟩ m (args.map Scalar.datum)).run s =
          .ok d s' → ∃ v : Scalar, d = v.datum ∧ v.ty = m.returnType) ∧
        ∀ w L, f.Returns (this :: args.map Scalar.word) w L → ∃ v : Scalar, w = v.word ∧ v.ty = m.returnType := by
  have hp : p.Accepted a := ⟨Analysis.describes ha, hcheck, nodeIds_nodup_of_parse hparse⟩
  obtain ⟨M, hM⟩ := Program.exists_lower hp.nodup ha hcheck
  obtain ⟨f, hf, hlower⟩ := Program.exists_function hM hc hm
  have hdefines := hp.describes.defines (identified_of_parse hparse) hcheck hM hlower hf
  refine ⟨M, _, hM, compile_of_lower hparse ha hcheck hM, Program.read_lower hparse ha hM, f, hf, hlower, hdefines,
    fun args hargs this receiver s => ?_⟩
  rcases MethodDecl.call_agrees hp hc hm hscalar (isIdentifier_of_parse hparse hc hm) hlower hargs this receiver s with
    ⟨x, s', L, hty, hconv, houtput, hreturns⟩ | ⟨hdiv, hendless⟩
  · have hunique : ∀ {w L'}, f.Returns (this :: args.map Scalar.word) w L' → w = x.word ∧ L' = L := by
      rintro w L' ⟨n, hn⟩
      obtain ⟨k, hk⟩ := hreturns
      cases Machine.run_unique hn hk
      exact ⟨rfl, rfl⟩
    refine ⟨fun v L' => ⟨?_, fun h => ?_⟩, fun fuel d t h => ⟨x, (hconv.unique h).1, hty⟩,
      fun w L' h => ⟨x, (hunique h).1, hty⟩⟩
    · rintro ⟨fuel, t, hrun, hL'⟩
      obtain ⟨hv, rfl⟩ := hconv.unique hrun
      rw [Scalar.datum_injective hv, List.append_cancel_left (hL'.symm.trans houtput)]
      exact hreturns
    · obtain ⟨hv, rfl⟩ := hunique h
      rw [Scalar.word_injective hv]
      obtain ⟨n, hn⟩ := hconv.reached
      exact ⟨n, s', hn n (Nat.le_refl n), houtput⟩
  · have hnone : ∀ {w L}, ¬ f.Returns (this :: args.map Scalar.word) w L := by
      rintro w L ⟨n, hn⟩
      cases (hendless.run_eq_none n).symm.trans hn
    refine ⟨fun v L' => ⟨?_, fun h => absurd h hnone⟩, fun fuel d t h => absurd h hdiv.not_ok,
      fun w L' h => absurd h hnone⟩
    rintro ⟨fuel, t, hrun, _⟩
    exact absurd hrun hdiv.not_ok

/-- A method that prints multiples of a number, unless it is told not to. -/
def multiplesSource : String :=
  "class M\x7bpublic static void main(String[]a)\x7b\x7b\x7d\x7d\x7d class C\x7bint f(int n,boolean b)\x7bint i;i=0;" ++
    "while(b&&i<n)\x7bSystem.out.println(i*n);i=i+1;\x7dreturn i;\x7d\x7d"

theorem scalar_call_iff_multiples : ∃ p a c m, parse multiplesSource = .ok p ∧ Analysis.ofProgram p = .ok a ∧
    p.check a = .ok () ∧ c ∈ p.classes ∧ m ∈ c.methods ∧ m.isScalar = true ∧
    ∃ M T, p.lower a = .ok M ∧ compile multiplesSource = .ok M.render ∧ IrText.read? M.render = some T ∧
      ∃ f, T.Defines ("@" ++ c.name ++ "." ++ m.name) f ∧
      ∀ this, f.Returns [this, .i32 2, .i1 1] (.i32 2) [0, 2] := by
  have h : (isValid multiplesSource).toOption = some true ∧
      ((parse multiplesSource).toOption.any fun p => p.classes.any fun c => c.methods.any fun m =>
        m.isScalar && m.formals.map (·.ty) = [.int, .boolean] &&
          match ((Evaluator.withFuel p 9).call ⟨some c.name, none⟩ m [.int 2, .bool true]).run .initial with
          | .ok d s => d = .int 2 && s.output = [0, 2]
          | .error _ _ => false) = true := by decide +kernel
  obtain ⟨hvalid, hcall⟩ := h
  obtain ⟨p, a, hparse, ha, hcheck⟩ := accepted_of_isValid hvalid
  rw [hparse] at hcall
  obtain ⟨c, hc, hcall⟩ := List.any_eq_true.mp hcall
  obtain ⟨m, hm, hcall⟩ := List.any_eq_true.mp hcall
  rw [Bool.and_eq_true, Bool.and_eq_true] at hcall
  obtain ⟨⟨hscalar, htypes⟩, hcall⟩ := hcall
  obtain ⟨M, T, hM, hcompile, hread, f, _, _, hdefines, hiff⟩ := scalar_call_iff hparse ha hcheck hc hm hscalar
  refine ⟨p, a, c, m, hparse, ha, hcheck, hc, hm, hscalar, M, T, hM, hcompile, hread, f, hdefines, fun this => ?_⟩
  have hcalls := hiff [.int 2, .bool true] (of_decide_eq_true htypes).symm this none .initial
  refine (hcalls.1 (.int 2) [0, 2]).mp ?_
  split at hcall
  · next d s hrun =>
      rw [Bool.and_eq_true, decide_eq_true_iff, decide_eq_true_iff] at hcall
      obtain ⟨rfl, houtput⟩ := hcall
      exact ⟨9, s, hrun, houtput⟩
  · cases hcall

end Demitasse
