import Demitasse.Program.Basic

/-! Programs as source text. A statement stands on lines of its own, indented by tabs. The operands
of an operator, the owner of a call and the array of an access are in parentheses, so the text does
not depend on how tightly operators bind. -/

namespace Demitasse

/-- One tab for every level. -/
def margin (depth : Nat) : String :=
  String.ofList (List.replicate depth '\t')

/-- A line of text. -/
def line (depth : Nat) (text : String) : String :=
  margin depth ++ text ++ "\n"

mutual

/-- The text of an expression. -/
def Expr.render : Expr → String
  | .binary _ op left right => "(" ++ left.render ++ ") " ++ op.symbol ++ " (" ++ right.render ++ ")"
  | .element _ array index => "(" ++ array.render ++ ")[" ++ index.render ++ "]"
  | .length _ array => "(" ++ array.render ++ ").length"
  | .call _ owner method args =>
    "(" ++ owner.render ++ ")." ++ method ++ "(" ++ Expr.renderArgs args ++ ")"
  | .int _ value => toString value
  | .bool _ value => if value then "true" else "false"
  | .var _ name => name
  | .this _ => "this"
  | .newArray _ size => "new int[" ++ size.render ++ "]"
  | .newObject _ className => "new " ++ className ++ "()"
  | .not _ operand => "!(" ++ operand.render ++ ")"

/-- Arguments, separated by a comma and a blank. -/
def Expr.renderArgs : List Expr → String
  | [] => ""
  | [e] => e.render
  | e :: rest => e.render ++ ", " ++ Expr.renderArgs rest

end

mutual

/-- The lines of a statement. A branch or a loop body that is not a block is one level deeper. -/
def Stmt.render (depth : Nat) : Stmt → String
  | .block _ body => line depth "\x7b" ++ Stmt.renderAll (depth + 1) body ++ line depth "\x7d"
  | .ifElse _ cond thenBranch elseBranch =>
    line depth ("if (" ++ cond.render ++ ")")
      ++ thenBranch.render (if thenBranch.isBlock then depth else depth + 1)
      ++ line depth "else"
      ++ elseBranch.render (if elseBranch.isBlock then depth else depth + 1)
  | .loop _ cond body =>
    line depth ("while (" ++ cond.render ++ ")")
      ++ body.render (if body.isBlock then depth else depth + 1)
  | .print _ arg => line depth ("System.out.println(" ++ arg.render ++ ");")
  | .assign _ target value => line depth (target ++ " = " ++ value.render ++ ";")
  | .assignElement _ target index value =>
    line depth (target ++ "[" ++ index.render ++ "] = " ++ value.render ++ ";")

/-- The lines of statements in a row. -/
def Stmt.renderAll (depth : Nat) : List Stmt → String
  | [] => ""
  | s :: rest => s.render depth ++ Stmt.renderAll depth rest

end

/-- A type and a name. -/
def VarDecl.binding (v : VarDecl) : String :=
  v.ty.spelling ++ " " ++ v.name

/-- The line of a field or a local variable. -/
def VarDecl.render (depth : Nat) (v : VarDecl) : String :=
  line depth (v.binding ++ ";")

/-- The lines of a method. -/
def MethodDecl.render (depth : Nat) (m : MethodDecl) : String :=
  line depth ("public " ++ m.returnType.spelling ++ " " ++ m.name ++ "("
      ++ ", ".intercalate (m.formals.map VarDecl.binding) ++ ") \x7b")
    ++ String.join (m.locals.map (VarDecl.render (depth + 1)))
    ++ Stmt.renderAll (depth + 1) m.body
    ++ line (depth + 1) ("return " ++ m.result.render ++ ";")
    ++ line depth "\x7d"

/-- What follows the name of a class that has a superclass. -/
def ClassDecl.extension (c : ClassDecl) : String :=
  match c.superName with
  | some superName => " extends " ++ superName
  | none => ""

/-- The lines of a class. -/
def ClassDecl.render (depth : Nat) (c : ClassDecl) : String :=
  line depth ("class " ++ c.name ++ c.extension ++ " \x7b")
    ++ String.join (c.fields.map (VarDecl.render (depth + 1)))
    ++ String.join (c.methods.map (MethodDecl.render (depth + 1)))
    ++ line depth "\x7d"

/-- The lines of the main class. -/
def MainClass.render (depth : Nat) (c : MainClass) : String :=
  line depth ("class " ++ c.name ++ " \x7b")
    ++ line (depth + 1) ("public static void main(String[] " ++ c.argsName ++ ") \x7b")
    ++ c.body.render (depth + 2)
    ++ line (depth + 1) "\x7d"
    ++ line depth "\x7d"

/-- The text of a program; an empty line stands before every class. -/
def Program.render (p : Program) : String :=
  p.main.render 0 ++ String.join (p.classes.map fun c => "\n" ++ c.render 0)

end Demitasse
