import Demitasse.Program.Basic

/-! The order in which the parts of a program are met: a node before its parts, and parts in source
order, a class's fields before its methods. -/

namespace Demitasse

/-- A part of a program that a walk meets. -/
inductive Visit where
  | program
  | mainClass (name : String) (node : Node)
  | classDecl (name : String) (node : Node)
  | varDecl (name : String) (node : Node)
  | method (name : String) (node : Node)
  | formal (name : String) (node : Node)
  | stmt (node : Node)
  | expr (node : Node)
  | type (ty : Ty)
deriving DecidableEq

namespace Visit

/-- The node of a part that has one. -/
def node? : Visit → Option Node
  | .program | .type _ => none
  | .mainClass _ node | .classDecl _ node | .varDecl _ node | .method _ node | .formal _ node
  | .stmt node | .expr node => some node

/-- The type that a part is. -/
def type? : Visit → Option Ty
  | .type ty => some ty
  | _ => none

/-- A part as it stands in a trace. -/
def trace : Visit → String
  | .program => "program"
  | .mainClass name node => "main_class " ++ name ++ " #" ++ toString node.id
  | .classDecl name node => "class " ++ name ++ " #" ++ toString node.id
  | .varDecl name node => "var_decl " ++ name ++ " #" ++ toString node.id
  | .method name node => "method " ++ name ++ " #" ++ toString node.id
  | .formal name node => "formal " ++ name ++ " #" ++ toString node.id
  | .stmt node => "statement #" ++ toString node.id
  | .expr node => "expr #" ++ toString node.id
  | .type ty => "type " ++ ty.spelling

end Visit

mutual

/-- The walk over an expression. -/
def Expr.visits : Expr → List Visit
  | .binary node _ left right => .expr node :: (left.visits ++ right.visits)
  | .element node array index => .expr node :: (array.visits ++ index.visits)
  | .length node array => .expr node :: array.visits
  | .call node owner _ args => .expr node :: (owner.visits ++ Expr.visitsAll args)
  | .newArray node size => .expr node :: size.visits
  | .not node operand => .expr node :: operand.visits
  | .int node _ | .bool node _ | .var node _ | .this node | .newObject node _ => [.expr node]

/-- The walk over expressions in a row. -/
def Expr.visitsAll : List Expr → List Visit
  | [] => []
  | e :: rest => e.visits ++ Expr.visitsAll rest

end

mutual

/-- The walk over a statement. -/
def Stmt.visits : Stmt → List Visit
  | .block node body => .stmt node :: Stmt.visitsAll body
  | .ifElse node cond thenBranch elseBranch =>
    .stmt node :: (cond.visits ++ thenBranch.visits ++ elseBranch.visits)
  | .loop node cond body => .stmt node :: (cond.visits ++ body.visits)
  | .print node arg => .stmt node :: arg.visits
  | .assign node _ value => .stmt node :: value.visits
  | .assignElement node _ index value => .stmt node :: (index.visits ++ value.visits)

/-- The walk over statements in a row. -/
def Stmt.visitsAll : List Stmt → List Visit
  | [] => []
  | s :: rest => s.visits ++ Stmt.visitsAll rest

end

/-- The walk over a field or a local variable. -/
def VarDecl.visits (v : VarDecl) : List Visit :=
  [.varDecl v.name v.node, .type v.ty]

/-- The walk over a parameter. -/
def VarDecl.formalVisits (v : VarDecl) : List Visit :=
  [.formal v.name v.node, .type v.ty]

/-- The walk over a method: its type, its parameters, its variables, its body and its result. -/
def MethodDecl.visits (m : MethodDecl) : List Visit :=
  .method m.name m.node :: .type m.returnType ::
    (m.formals.flatMap VarDecl.formalVisits ++ m.locals.flatMap VarDecl.visits
      ++ Stmt.visitsAll m.body ++ m.result.visits)

/-- The walk over a class. -/
def ClassDecl.visits (c : ClassDecl) : List Visit :=
  .classDecl c.name c.node ::
    (c.fields.flatMap VarDecl.visits ++ c.methods.flatMap MethodDecl.visits)

/-- The walk over the main class. -/
def MainClass.visits (c : MainClass) : List Visit :=
  .mainClass c.name c.node :: c.body.visits

/-- The walk over a program. -/
def Program.visits (p : Program) : List Visit :=
  .program :: (p.main.visits ++ p.classes.flatMap ClassDecl.visits)

/-- The identities of the nodes of a walk. -/
def nodeIds (visits : List Visit) : List NodeId :=
  visits.filterMap fun v => v.node?.map (·.id)

end Demitasse
