import Mathlib.Data.List.Perm.Basic
import Demitasse.Program.Visit

/-! The identities of the nodes of a program in two orders. A walk meets a node before its parts; they are
handed out when the text of a node is over, so there the parts come before the node. -/

namespace Demitasse

theorem nodeIds_append (v w : List Visit) : nodeIds (v ++ w) = nodeIds v ++ nodeIds w :=
  List.filterMap_append

theorem nodeIds_cons_of_some {v : Visit} {node : Node} (h : v.node? = some node) (w : List Visit) :
    nodeIds (v :: w) = node.id :: nodeIds w := by
  simp [nodeIds, h]

theorem nodeIds_cons_of_none {v : Visit} (h : v.node? = none) (w : List Visit) :
    nodeIds (v :: w) = nodeIds w := by
  simp [nodeIds, h]

theorem nodeIds_flatMap {α : Type} (visits : α → List Visit) (l : List α) :
    nodeIds (l.flatMap visits) = l.flatMap fun a => nodeIds (visits a) :=
  List.filterMap_flatMap

mutual

/-- The identities of an expression, parts first. -/
def Expr.ids : Expr → List NodeId
  | .binary node _ left right => left.ids ++ right.ids ++ [node.id]
  | .element node array index => array.ids ++ index.ids ++ [node.id]
  | .length node array => array.ids ++ [node.id]
  | .call node owner _ args => owner.ids ++ Expr.idsAll args ++ [node.id]
  | .newArray node size => size.ids ++ [node.id]
  | .not node operand => operand.ids ++ [node.id]
  | .int node _ | .bool node _ | .var node _ | .this node | .newObject node _ => [node.id]

/-- The identities of expressions in a row. -/
def Expr.idsAll : List Expr → List NodeId
  | [] => []
  | e :: rest => e.ids ++ Expr.idsAll rest

end

mutual

/-- The identities of a statement, parts first. -/
def Stmt.ids : Stmt → List NodeId
  | .block node body => Stmt.idsAll body ++ [node.id]
  | .ifElse node cond thenBranch elseBranch =>
    cond.ids ++ thenBranch.ids ++ elseBranch.ids ++ [node.id]
  | .loop node cond body => cond.ids ++ body.ids ++ [node.id]
  | .print node arg => arg.ids ++ [node.id]
  | .assign node _ value => value.ids ++ [node.id]
  | .assignElement node _ index value => index.ids ++ value.ids ++ [node.id]

/-- The identities of statements in a row. -/
def Stmt.idsAll : List Stmt → List NodeId
  | [] => []
  | s :: rest => s.ids ++ Stmt.idsAll rest

end

theorem Expr.idsAll_eq (es : List Expr) : Expr.idsAll es = es.flatMap Expr.ids := by
  induction es with
  | nil => rfl
  | cons e rest ih => rw [Expr.idsAll, ih, List.flatMap_cons]

theorem Stmt.idsAll_eq (ss : List Stmt) : Stmt.idsAll ss = ss.flatMap Stmt.ids := by
  induction ss with
  | nil => rfl
  | cons s rest ih => rw [Stmt.idsAll, ih, List.flatMap_cons]

/-- The identity of a declared variable. -/
def VarDecl.ids (v : VarDecl) : List NodeId :=
  [v.node.id]

/-- The identities of a method, parts first. -/
def MethodDecl.ids (m : MethodDecl) : List NodeId :=
  m.formals.flatMap VarDecl.ids ++ m.locals.flatMap VarDecl.ids ++ Stmt.idsAll m.body ++ m.result.ids
    ++ [m.node.id]

/-- The identities of a class, parts first. -/
def ClassDecl.ids (c : ClassDecl) : List NodeId :=
  c.fields.flatMap VarDecl.ids ++ c.methods.flatMap MethodDecl.ids ++ [c.node.id]

/-- The identities of the main class, parts first. -/
def MainClass.ids (c : MainClass) : List NodeId :=
  c.body.ids ++ [c.node.id]

/-- The identities of a program, parts first. -/
def Program.ids (p : Program) : List NodeId :=
  p.main.ids ++ p.classes.flatMap ClassDecl.ids

theorem perm_last {parts parts' : List NodeId} (h : parts.Perm parts') (id : NodeId) :
    (id :: parts).Perm (parts' ++ [id]) :=
  (h.cons id).trans (List.perm_append_singleton id parts').symm

mutual

theorem Expr.nodeIds_perm : ∀ e : Expr, (nodeIds e.visits).Perm e.ids
  | .binary node _ left right => by
      rw [Expr.visits, nodeIds_cons_of_some rfl, nodeIds_append, Expr.ids]
      exact perm_last (left.nodeIds_perm.append right.nodeIds_perm) _
  | .element node array index => by
      rw [Expr.visits, nodeIds_cons_of_some rfl, nodeIds_append, Expr.ids]
      exact perm_last (array.nodeIds_perm.append index.nodeIds_perm) _
  | .length node array => by
      rw [Expr.visits, nodeIds_cons_of_some rfl, Expr.ids]
      exact perm_last array.nodeIds_perm _
  | .call node owner _ args => by
      rw [Expr.visits, nodeIds_cons_of_some rfl, nodeIds_append, Expr.ids]
      exact perm_last (owner.nodeIds_perm.append (Expr.nodeIds_permAll args)) _
  | .newArray node size => by
      rw [Expr.visits, nodeIds_cons_of_some rfl, Expr.ids]
      exact perm_last size.nodeIds_perm _
  | .not node operand => by
      rw [Expr.visits, nodeIds_cons_of_some rfl, Expr.ids]
      exact perm_last operand.nodeIds_perm _
  | .int _ _ | .bool _ _ | .var _ _ | .this _ | .newObject _ _ => List.Perm.refl _

theorem Expr.nodeIds_permAll : ∀ es : List Expr, (nodeIds (Expr.visitsAll es)).Perm (Expr.idsAll es)
  | [] => List.Perm.refl _
  | e :: rest => by
      rw [Expr.visitsAll, nodeIds_append, Expr.idsAll]
      exact e.nodeIds_perm.append (Expr.nodeIds_permAll rest)

end

mutual

theorem Stmt.nodeIds_perm : ∀ s : Stmt, (nodeIds s.visits).Perm s.ids
  | .block node body => by
      rw [Stmt.visits, nodeIds_cons_of_some rfl, Stmt.ids]
      exact perm_last (Stmt.nodeIds_permAll body) _
  | .ifElse node cond thenBranch elseBranch => by
      rw [Stmt.visits, nodeIds_cons_of_some rfl, nodeIds_append, nodeIds_append, Stmt.ids]
      exact perm_last ((cond.nodeIds_perm.append thenBranch.nodeIds_perm).append elseBranch.nodeIds_perm) _
  | .loop node cond body => by
      rw [Stmt.visits, nodeIds_cons_of_some rfl, nodeIds_append, Stmt.ids]
      exact perm_last (cond.nodeIds_perm.append body.nodeIds_perm) _
  | .print node arg => by
      rw [Stmt.visits, nodeIds_cons_of_some rfl, Stmt.ids]
      exact perm_last arg.nodeIds_perm _
  | .assign node _ value => by
      rw [Stmt.visits, nodeIds_cons_of_some rfl, Stmt.ids]
      exact perm_last value.nodeIds_perm _
  | .assignElement node _ index value => by
      rw [Stmt.visits, nodeIds_cons_of_some rfl, nodeIds_append, Stmt.ids]
      exact perm_last (index.nodeIds_perm.append value.nodeIds_perm) _

theorem Stmt.nodeIds_permAll : ∀ ss : List Stmt, (nodeIds (Stmt.visitsAll ss)).Perm (Stmt.idsAll ss)
  | [] => List.Perm.refl _
  | s :: rest => by
      rw [Stmt.visitsAll, nodeIds_append, Stmt.idsAll]
      exact s.nodeIds_perm.append (Stmt.nodeIds_permAll rest)

end

theorem nodeIds_flatMap_perm {α : Type} {visits : α → List Visit} {ids : α → List NodeId}
    (h : ∀ a, (nodeIds (visits a)).Perm (ids a)) (l : List α) :
    (nodeIds (l.flatMap visits)).Perm (l.flatMap ids) := by
  rw [nodeIds_flatMap]
  exact List.Perm.flatMap_left l fun a _ => h a

theorem VarDecl.nodeIds_perm (v : VarDecl) : (nodeIds v.visits).Perm v.ids :=
  List.Perm.refl _

theorem VarDecl.nodeIds_formal_perm (v : VarDecl) : (nodeIds v.formalVisits).Perm v.ids :=
  List.Perm.refl _

theorem MethodDecl.nodeIds_perm (m : MethodDecl) : (nodeIds m.visits).Perm m.ids := by
  rw [MethodDecl.visits, nodeIds_cons_of_some rfl, nodeIds_cons_of_none rfl, nodeIds_append, nodeIds_append,
    nodeIds_append, MethodDecl.ids]
  have hparts := (((nodeIds_flatMap_perm VarDecl.nodeIds_formal_perm m.formals).append
    (nodeIds_flatMap_perm VarDecl.nodeIds_perm m.locals)).append (Stmt.nodeIds_permAll m.body)).append
    m.result.nodeIds_perm
  exact perm_last hparts _

theorem ClassDecl.nodeIds_perm (c : ClassDecl) : (nodeIds c.visits).Perm c.ids := by
  rw [ClassDecl.visits, nodeIds_cons_of_some rfl, nodeIds_append, ClassDecl.ids]
  have hparts := (nodeIds_flatMap_perm VarDecl.nodeIds_perm c.fields).append
    (nodeIds_flatMap_perm MethodDecl.nodeIds_perm c.methods)
  exact perm_last hparts _

theorem MainClass.nodeIds_perm (c : MainClass) : (nodeIds c.visits).Perm c.ids := by
  rw [MainClass.visits, nodeIds_cons_of_some rfl, MainClass.ids]
  exact perm_last c.body.nodeIds_perm _

/-- A walk meets every identity as often as it was handed out. -/
theorem Program.nodeIds_perm (p : Program) : (nodeIds p.visits).Perm p.ids := by
  rw [Program.visits, nodeIds_cons_of_none rfl, nodeIds_append, Program.ids]
  exact p.main.nodeIds_perm.append (nodeIds_flatMap_perm ClassDecl.nodeIds_perm p.classes)

end Demitasse
