import Demitasse.Program.Basic
import Demitasse.Text.Dump

/-! Programs as dumps: every node is a record of its identity, its parts and its span. -/

namespace Demitasse

open Text (Dump)

/-- A span as a dump. -/
def Span.dump (s : Span) : Dump :=
  .record "Span" [("start", .number s.start), ("end", .number s.stop)]

/-- The text of a span in messages. -/
def Span.text (s : Span) : String :=
  s.dump.compact

/-- A node's identity as a dump. -/
def NodeId.dump (id : NodeId) : Dump :=
  .tuple "NodeId" [.number id]

/-- A type as a dump. -/
def Ty.dump : Ty → Dump
  | .int => .atom "Int"
  | .boolean => .atom "Boolean"
  | .intArray => .atom "IntArray"
  | .object className => .tuple "Class" [.string className]

/-- An operator as a dump. -/
def BinOp.dump : BinOp → Dump
  | .and => .atom "And"
  | .less => .atom "Lt"
  | .add => .atom "Add"
  | .sub => .atom "Sub"
  | .mul => .atom "Mul"

/-- A record that starts with its node's identity and ends with its span. -/
def Node.dumpAs (node : Node) (name : String) (fields : List (String × Dump)) : Dump :=
  .record name (("id", NodeId.dump node.id) :: fields ++ [("span", node.span.dump)])

/-- A record with the kind of its node between identity and span. -/
def Node.dumpKind (node : Node) (name : String) (kind : Dump) : Dump :=
  node.dumpAs name [("kind", kind)]

mutual

/-- An expression as a dump. -/
def Expr.dump : Expr → Dump
  | .binary node op left right =>
    node.dumpKind "Expr" <|
      .record "Binary" [("op", op.dump), ("left", left.dump), ("right", right.dump)]
  | .element node array index =>
    node.dumpKind "Expr" (.record "ArrayAccess" [("array", array.dump), ("index", index.dump)])
  | .length node array => node.dumpKind "Expr" (.tuple "ArrayLength" [array.dump])
  | .call node owner method args =>
    node.dumpKind "Expr" <| .record "MethodCall"
      [("owner", owner.dump), ("method", .string method), ("args", .list (Expr.dumpAll args))]
  | .int node value => node.dumpKind "Expr" (.tuple "IntLiteral" [.number value])
  | .bool node value => node.dumpKind "Expr" (.atom (if value then "True" else "False"))
  | .var node name => node.dumpKind "Expr" (.tuple "Identifier" [.string name])
  | .this node => node.dumpKind "Expr" (.atom "This")
  | .newArray node size => node.dumpKind "Expr" (.tuple "NewIntArray" [size.dump])
  | .newObject node className => node.dumpKind "Expr" (.tuple "NewObject" [.string className])
  | .not node operand => node.dumpKind "Expr" (.tuple "Not" [operand.dump])

/-- Expressions as dumps, in order. -/
def Expr.dumpAll : List Expr → List Dump
  | [] => []
  | e :: rest => e.dump :: Expr.dumpAll rest

end

mutual

/-- A statement as a dump. -/
def Stmt.dump : Stmt → Dump
  | .block node body => node.dumpKind "Statement" (.tuple "Block" [.list (Stmt.dumpAll body)])
  | .ifElse node cond thenBranch elseBranch =>
    node.dumpKind "Statement" <| .record "If"
      [("cond", cond.dump), ("then_branch", thenBranch.dump), ("else_branch", elseBranch.dump)]
  | .loop node cond body =>
    node.dumpKind "Statement" (.record "While" [("cond", cond.dump), ("body", body.dump)])
  | .print node arg => node.dumpKind "Statement" (.tuple "Print" [arg.dump])
  | .assign node target value =>
    node.dumpKind "Statement" (.record "Assign" [("target", .string target), ("value", value.dump)])
  | .assignElement node target index value =>
    node.dumpKind "Statement" <| .record "ArrayAssign"
      [("target", .string target), ("index", index.dump), ("value", value.dump)]

/-- Statements as dumps, in order. -/
def Stmt.dumpAll : List Stmt → List Dump
  | [] => []
  | s :: rest => s.dump :: Stmt.dumpAll rest

end

/-- A declaration as a dump; `name` tells parameters from other variables. -/
def VarDecl.dumpAs (v : VarDecl) (name : String) : Dump :=
  v.node.dumpAs name [("ty", v.ty.dump), ("name", .string v.name)]

/-- A field or a local variable as a dump. -/
def VarDecl.dump (v : VarDecl) : Dump :=
  v.dumpAs "VarDecl"

/-- A method as a dump. -/
def MethodDecl.dump (m : MethodDecl) : Dump :=
  m.node.dumpAs "MethodDecl"
    [("return_type", m.returnType.dump), ("name", .string m.name),
      ("formals", .list (m.formals.map (·.dumpAs "FormalArg"))),
      ("locals", .list (m.locals.map VarDecl.dump)), ("body", .list (Stmt.dumpAll m.body)),
      ("ret", m.result.dump)]

/-- A class as a dump. -/
def ClassDecl.dump (c : ClassDecl) : Dump :=
  c.node.dumpAs "ClassDecl"
    [("name", .string c.name), ("super_name", .option (c.superName.map .string)),
      ("fields", .list (c.fields.map VarDecl.dump)),
      ("methods", .list (c.methods.map MethodDecl.dump))]

/-- The main class as a dump. -/
def MainClass.dump (c : MainClass) : Dump :=
  c.node.dumpAs "MainClass"
    [("name", .string c.name), ("args_name", .string c.argsName), ("body", c.body.dump)]

/-- A program as a dump. -/
def Program.dump (p : Program) : Dump :=
  .record "Program"
    [("main_class", p.main.dump), ("classes", .list (p.classes.map ClassDecl.dump)),
      ("span", p.span.dump)]

end Demitasse
