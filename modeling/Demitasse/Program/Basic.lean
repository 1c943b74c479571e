import Demitasse.Text.Span

/-! Programs of MiniJava as trees: a main class with one statement, and a list of classes with
fields and methods. Every node carries its identity and the text it was read from. -/

namespace Demitasse

/-- The identity of a node: two nodes of one program never share it, however alike they are. The numbers have no bound
here; they are those of a counter of 32 bits as long as a program has fewer than `2 ^ 32` nodes. -/
abbrev NodeId := Nat

/-- What every node of a program carries. -/
structure Node where
  id : NodeId
  span : Span
deriving DecidableEq

/-- Types of variables and expressions. -/
inductive Ty where
  | int
  | boolean
  | intArray
  /-- the instances of a class -/
  | object (className : String)
deriving DecidableEq

namespace Ty

/-- A type as it is written in a program. -/
def spelling : Ty → String
  | .int => "int"
  | .boolean => "boolean"
  | .intArray => "int[]"
  | .object className => className

/-- The class whose instances a type holds. -/
def className? : Ty → Option String
  | .object className => some className
  | _ => none

/-- Whether the values of a type are instances of a class. -/
def isReference (ty : Ty) : Bool :=
  ty.className?.isSome

end Ty

/-- Operators with two operands. -/
inductive BinOp where
  | and | less | add | sub | mul
deriving DecidableEq

/-- An operator as it is written in a program. -/
def BinOp.symbol : BinOp → String
  | .and => "&&"
  | .less => "<"
  | .add => "+"
  | .sub => "-"
  | .mul => "*"

/-- Expressions. -/
inductive Expr where
  | binary (node : Node) (op : BinOp) (left right : Expr)
  /-- an element of an array -/
  | element (node : Node) (array index : Expr)
  /-- the length of an array -/
  | length (node : Node) (array : Expr)
  /-- a call of a method on its owner -/
  | call (node : Node) (owner : Expr) (method : String) (args : List Expr)
  | int (node : Node) (value : Nat)
  | bool (node : Node) (value : Bool)
  | var (node : Node) (name : String)
  | this (node : Node)
  | newArray (node : Node) (size : Expr)
  | newObject (node : Node) (className : String)
  | not (node : Node) (operand : Expr)

/-- The node of an expression. -/
def Expr.node : Expr → Node
  | .binary node .. | .element node .. | .length node .. | .call node .. | .int node .. | .bool node ..
  | .var node .. | .this node | .newArray node .. | .newObject node .. | .not node .. => node

/-- The text an expression was read from. -/
def Expr.span (e : Expr) : Span :=
  e.node.span

/-- Statements. -/
inductive Stmt where
  | block (node : Node) (body : List Stmt)
  | ifElse (node : Node) (cond : Expr) (thenBranch elseBranch : Stmt)
  | loop (node : Node) (cond : Expr) (body : Stmt)
  | print (node : Node) (arg : Expr)
  | assign (node : Node) (target : String) (value : Expr)
  /-- an assignment to an element of an array -/
  | assignElement (node : Node) (target : String) (index value : Expr)

/-- The node of a statement. -/
def Stmt.node : Stmt → Node
  | .block node .. | .ifElse node .. | .loop node .. | .print node .. | .assign node ..
  | .assignElement node .. => node

/-- The text a statement was read from. -/
def Stmt.span (s : Stmt) : Span :=
  s.node.span

/-- Whether a statement is a block. -/
def Stmt.isBlock : Stmt → Bool
  | .block .. => true
  | _ => false

/-- The declaration of a field, a parameter or a local variable. -/
structure VarDecl where
  node : Node
  ty : Ty
  name : String
deriving DecidableEq

/-- A method: its result is the value of one expression after the body. -/
structure MethodDecl where
  node : Node
  returnType : Ty
  name : String
  formals : List VarDecl
  locals : List VarDecl
  body : List Stmt
  result : Expr

/-- A class. -/
structure ClassDecl where
  node : Node
  name : String
  superName : Option String
  fields : List VarDecl
  methods : List MethodDecl

/-- The first method of the given name. -/
def ClassDecl.method? (c : ClassDecl) (name : String) : Option MethodDecl :=
  c.methods.find? fun m => m.name = name

/-- The class that holds the statement a program runs. -/
structure MainClass where
  node : Node
  name : String
  argsName : String
  body : Stmt

/-- A program. -/
structure Program where
  main : MainClass
  classes : List ClassDecl
  span : Span

/-- The first class of the given name; the main class is not among them. -/
def Program.class? (p : Program) (name : String) : Option ClassDecl :=
  p.classes.find? fun c => c.name = name

end Demitasse
