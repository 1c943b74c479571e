import Demitasse.Proofs.Numbering
import Demitasse.Proofs.Typing
import Mathlib.Computability.Language

/-! Paths through code. A path is the list of the variables that are read and assigned on it, each with the node
where this happens, and the paths through a piece of code form a language. An alternative takes either of its
branches, a loop goes round any number of times, and a conjunction evaluates its right operand or skips it. -/

namespace Demitasse

open Computability

/-- A variable is read or assigned at a node. -/
inductive Access where
  | read (node : Node) (name : String)
  | write (node : Node) (name : String)
deriving DecidableEq

/-- The node of an access. -/
def Access.node : Access → Node
  | .read node _ | .write node _ => node

mutual

/-- The paths through an expression. -/
@[simp] def Expr.paths : Expr → Language Access
  | .binary _ op left right => left.paths * if op = .and then 1 + right.paths else right.paths
  | .element _ array index => array.paths * index.paths
  | .length _ array => array.paths
  | .call _ owner _ args => owner.paths * Expr.pathsAll args
  | .var node name => {[.read node name]}
  | .newArray _ size => size.paths
  | .not _ operand => operand.paths
  | .int .. | .bool .. | .this _ | .newObject .. => 1

/-- The paths through expressions in a row. -/
@[simp] def Expr.pathsAll : List Expr → Language Access
  | [] => 1
  | e :: rest => e.paths * Expr.pathsAll rest

end

mutual

/-- The paths through a statement. The array of an assigned element is read before the index and the value. -/
@[simp] def Stmt.paths : Stmt → Language Access
  | .block _ body => Stmt.pathsAll body
  | .ifElse _ cond thenBranch elseBranch => cond.paths * (thenBranch.paths + elseBranch.paths)
  | .loop _ cond body => (cond.paths * body.paths)∗ * cond.paths
  | .print _ arg => arg.paths
  | .assign node target value => value.paths * {[.write node target]}
  | .assignElement node target index value => {[.read node target]} * (index.paths * value.paths)

/-- The paths through statements in a row. -/
@[simp] def Stmt.pathsAll : List Stmt → Language Access
  | [] => 1
  | s :: rest => s.paths * Stmt.pathsAll rest

end

/-- The paths through a method, from its entry to its result. -/
def MethodDecl.paths (m : MethodDecl) : Language Access :=
  Stmt.pathsAll m.body * m.result.paths

/-- All accesses on the paths are such that `P`. -/
def Only (P : Access → Prop) (L : Language Access) : Prop :=
  ∀ t ∈ L, ∀ access ∈ t, P access

section
variable {P Q : Access → Prop} {L M : Language Access}

theorem only_one : Only P 1 := by
  intro t ht access haccess
  rw [Language.mem_one] at ht
  subst ht
  cases haccess

theorem only_singleton {access : Access} (h : P access) : Only P {[access]} := by
  intro t ht access' haccess
  obtain rfl : t = [access] := ht
  rw [List.mem_singleton] at haccess
  rwa [haccess]

theorem Only.mul (hL : Only P L) (hM : Only P M) : Only P (L * M) := by
  intro t ht access haccess
  obtain ⟨s, hs, u, hu, rfl⟩ := Language.mem_mul.mp ht
  rcases List.mem_append.mp haccess with h | h
  · exact hL s hs access h
  · exact hM u hu access h

theorem Only.add (hL : Only P L) (hM : Only P M) : Only P (L + M) := by
  intro t ht
  rcases (Language.mem_add _ _ _).mp ht with h | h
  · exact hL t h
  · exact hM t h

theorem Only.kstar (hL : Only P L) : Only P L∗ := by
  intro t ht access haccess
  obtain ⟨words, rfl, hwords⟩ := Language.mem_kstar.mp ht
  obtain ⟨word, hword, h⟩ := List.mem_flatten.mp haccess
  exact hL word (hwords word hword) access h

theorem Only.imp (hL : Only P L) (h : ∀ access, P access → Q access) : Only Q L :=
  fun t ht access haccess => h access (hL t ht access haccess)

/-- The right operand of an operator is evaluated, or skipped if the operator is the conjunction. -/
theorem Only.operand (hL : Only P L) (op : BinOp) : Only P (if op = .and then 1 + L else L) := by
  split
  · exact only_one.add hL
  · exact hL

/-- A variable is read inside an expression. -/
def Access.ReadIn (e : Expr) (access : Access) : Prop :=
  ∃ node name, access = .read node name ∧ (Expr.var node name).Inside e

theorem Only.child {e c : Expr} (h : Only (·.ReadIn c) L) (hc : c ∈ e.children) : Only (·.ReadIn e) L := by
  refine h.imp ?_
  rintro _ ⟨node, name, rfl, hinside⟩
  exact ⟨node, name, rfl, .child hc hinside⟩

end

mutual

/-- The paths through an expression read its variables and do nothing else. -/
theorem Expr.only_reads : ∀ e : Expr, Only (·.ReadIn e) e.paths
  | .binary _ op left right => by
      rw [paths]
      apply Only.mul
      · exact left.only_reads.child (by simp [children])
      · exact (right.only_reads.child (by simp [children])).operand op
  | .element _ array index => by
      rw [paths]
      apply Only.mul
      · exact array.only_reads.child (by simp [children])
      · exact index.only_reads.child (by simp [children])
  | .length _ array => by
      rw [paths]
      exact array.only_reads.child (by simp [children])
  | .call _ owner _ args => by
      rw [paths]
      apply Only.mul
      · exact owner.only_reads.child (by simp [children])
      · exact Expr.only_readsAll args fun arg harg => by simp [children, harg]
  | .var node name => by
      rw [paths]
      exact only_singleton ⟨node, name, rfl, .self⟩
  | .newArray _ size => by
      rw [paths]
      exact size.only_reads.child (by simp [children])
  | .not _ operand => by
      rw [paths]
      exact operand.only_reads.child (by simp [children])
  | .int .. | .bool .. | .this _ | .newObject .. => by
      rw [paths]
      exact only_one

theorem Expr.only_readsAll {e : Expr} : ∀ args : List Expr, (∀ arg ∈ args, arg ∈ e.children) →
    Only (·.ReadIn e) (Expr.pathsAll args)
  | [], _ => by
      rw [pathsAll]
      exact only_one
  | arg :: rest, h => by
      obtain ⟨harg, hrest⟩ := List.forall_mem_cons.mp h
      rw [pathsAll]
      exact (arg.only_reads.child harg).mul (Expr.only_readsAll rest hrest)

end

/-- The accesses on the paths are at nodes with the given identities. -/
def At (ids : List NodeId) (L : Language Access) : Prop :=
  Only (·.node.id ∈ ids) L

theorem At.mono {ids more : List NodeId} {L : Language Access} (h : At ids L) (hsub : ids ⊆ more) : At more L :=
  h.imp fun _ hid => hsub hid

theorem Expr.paths_at (e : Expr) : At (nodeIds e.visits) e.paths := by
  refine e.only_reads.imp ?_
  rintro _ ⟨node, name, rfl, hinside⟩
  apply nodeIds_subset hinside.visits_subset
  rw [visits, nodeIds_cons_of_some rfl]
  exact List.mem_cons_self

mutual

theorem Stmt.paths_at : ∀ s : Stmt, At (nodeIds s.visits) s.paths
  | .block node body => by
      rw [paths, visits, nodeIds_cons_of_some rfl]
      exact (Stmt.pathsAll_at body).mono (List.subset_cons_self ..)
  | .ifElse node cond thenBranch elseBranch => by
      rw [paths, visits]
      apply Only.mul
      · exact cond.paths_at.mono (Demitasse.nodeIds_subset fun v hv => by simp [hv])
      · apply Only.add
        · exact thenBranch.paths_at.mono (Demitasse.nodeIds_subset fun v hv => by simp [hv])
        · exact elseBranch.paths_at.mono (Demitasse.nodeIds_subset fun v hv => by simp [hv])
  | .loop node cond body => by
      rw [paths, visits]
      have hcond : At (nodeIds (.stmt node :: (cond.visits ++ body.visits))) cond.paths :=
        cond.paths_at.mono (Demitasse.nodeIds_subset fun v hv => by simp [hv])
      have hbody : At (nodeIds (.stmt node :: (cond.visits ++ body.visits))) body.paths :=
        body.paths_at.mono (Demitasse.nodeIds_subset fun v hv => by simp [hv])
      exact (Only.mul hcond hbody).kstar.mul hcond
  | .print node arg => by
      rw [paths, visits, nodeIds_cons_of_some rfl]
      exact arg.paths_at.mono (List.subset_cons_self ..)
  | .assign node target value => by
      rw [paths, visits, nodeIds_cons_of_some rfl]
      apply Only.mul
      · exact value.paths_at.mono (List.subset_cons_self ..)
      · exact only_singleton (List.mem_cons_self ..)
  | .assignElement node target index value => by
      rw [paths, visits]
      apply Only.mul
      · rw [nodeIds_cons_of_some rfl]
        exact only_singleton (List.mem_cons_self ..)
      · apply Only.mul
        · exact index.paths_at.mono (Demitasse.nodeIds_subset fun v hv => by simp [hv])
        · exact value.paths_at.mono (Demitasse.nodeIds_subset fun v hv => by simp [hv])

theorem Stmt.pathsAll_at : ∀ ss : List Stmt, At (nodeIds (Stmt.visitsAll ss)) (Stmt.pathsAll ss)
  | [] => by
      rw [pathsAll]
      exact only_one
  | s :: rest => by
      rw [pathsAll, visitsAll, nodeIds_append]
      apply Only.mul
      · exact s.paths_at.mono (List.subset_append_left ..)
      · exact (Stmt.pathsAll_at rest).mono (List.subset_append_right ..)

end

theorem MethodDecl.paths_at (m : MethodDecl) : At (nodeIds m.visits) m.paths := by
  rw [visits]
  apply Only.mul
  · exact (Stmt.pathsAll_at m.body).mono (Demitasse.nodeIds_subset fun v hv => by simp [hv])
  · exact m.result.paths_at.mono (Demitasse.nodeIds_subset fun v hv => by simp [hv])

mutual

theorem Expr.exists_path : ∀ e : Expr, ∃ t, t ∈ e.paths
  | .binary _ op left right => by
      obtain ⟨s, hs⟩ := left.exists_path
      obtain ⟨t, ht⟩ := right.exists_path
      refine ⟨s ++ t, ?_⟩
      rw [paths]
      refine Language.append_mem_mul hs ?_
      split
      · exact (Language.mem_add ..).mpr (.inr ht)
      · exact ht
  | .element _ array index => by
      obtain ⟨s, hs⟩ := array.exists_path
      obtain ⟨t, ht⟩ := index.exists_path
      refine ⟨s ++ t, ?_⟩
      rw [paths]
      exact Language.append_mem_mul hs ht
  | .length _ array => by
      rw [paths]
      exact array.exists_path
  | .call _ owner _ args => by
      obtain ⟨s, hs⟩ := owner.exists_path
      obtain ⟨t, ht⟩ := Expr.exists_pathAll args
      refine ⟨s ++ t, ?_⟩
      rw [paths]
      exact Language.append_mem_mul hs ht
  | .var node name => by
      rw [paths]
      exact ⟨_, rfl⟩
  | .newArray _ size => by
      rw [paths]
      exact size.exists_path
  | .not _ operand => by
      rw [paths]
      exact operand.exists_path
  | .int .. | .bool .. | .this _ | .newObject .. => by
      rw [paths]
      exact ⟨[], rfl⟩

theorem Expr.exists_pathAll : ∀ es : List Expr, ∃ t, t ∈ Expr.pathsAll es
  | [] => by
      rw [pathsAll]
      exact ⟨[], rfl⟩
  | e :: rest => by
      obtain ⟨s, hs⟩ := e.exists_path
      obtain ⟨t, ht⟩ := Expr.exists_pathAll rest
      rw [pathsAll]
      exact ⟨s ++ t, Language.append_mem_mul hs ht⟩

end

mutual

theorem Stmt.exists_path : ∀ s : Stmt, ∃ t, t ∈ s.paths
  | .block _ body => by
      rw [paths]
      exact Stmt.exists_pathAll body
  | .ifElse _ cond thenBranch elseBranch => by
      obtain ⟨s, hs⟩ := cond.exists_path
      obtain ⟨t, ht⟩ := thenBranch.exists_path
      refine ⟨s ++ t, ?_⟩
      rw [paths]
      exact Language.append_mem_mul hs ((Language.mem_add ..).mpr (.inl ht))
  | .loop _ cond body => by
      obtain ⟨s, hs⟩ := cond.exists_path
      refine ⟨[] ++ s, ?_⟩
      rw [paths]
      exact Language.append_mem_mul (Language.nil_mem_kstar _) hs
  | .print _ arg => by
      rw [paths]
      exact arg.exists_path
  | .assign node target value => by
      obtain ⟨s, hs⟩ := value.exists_path
      refine ⟨s ++ [.write node target], ?_⟩
      rw [paths]
      exact Language.append_mem_mul hs rfl
  | .assignElement node target index value => by
      obtain ⟨s, hs⟩ := index.exists_path
      obtain ⟨t, ht⟩ := value.exists_path
      refine ⟨[.read node target] ++ (s ++ t), ?_⟩
      rw [paths]
      exact Language.append_mem_mul rfl (Language.append_mem_mul hs ht)

theorem Stmt.exists_pathAll : ∀ ss : List Stmt, ∃ t, t ∈ Stmt.pathsAll ss
  | [] => by
      rw [pathsAll]
      exact ⟨[], rfl⟩
  | s :: rest => by
      obtain ⟨u, hu⟩ := s.exists_path
      obtain ⟨t, ht⟩ := Stmt.exists_pathAll rest
      rw [pathsAll]
      exact ⟨u ++ t, Language.append_mem_mul hu ht⟩

end

end Demitasse
