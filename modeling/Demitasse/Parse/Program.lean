import Demitasse.Parse.Stmt

/-! Reading declarations and whole programs. -/

namespace Demitasse.Parser

/-- A type. -/
def type : Parser Ty := do
  if ← accept (.ofKeyword .kwInt) then
    if ← accept .lbracket then
      expect .rbracket
      return .intArray
    else
      return .int
  else if ← accept (.ofKeyword .kwBoolean) then
    return .boolean
  else if (← get).identifierAt 0 then
    return .object (← identifier)
  else
    fail .expectedType

/-- A parameter. -/
def formal : Parser VarDecl := do
  let start ← here
  let ty ← type
  let name ← identifier
  return ⟨← mark start, ty, name⟩

/-- A field or a local variable. -/
def varDecl : Parser VarDecl := do
  let start ← here
  let ty ← type
  let name ← identifier
  expect .semicolon
  return ⟨← mark start, ty, name⟩

/-- A method. -/
def methodDecl (bound : Nat) : Parser MethodDecl := do
  let start ← here
  let _ ← accept (.ofKeyword .kwPublic)
  let returnType ← type
  let name ← identifier
  let formals ← parenthesised formal bound
  expect .lbrace
  let locals ← many Cursor.startsVarDecl varDecl bound
  let body ← manyUntil (.ofKeyword .kwReturn) (.missingReturn name) (stmtWithin bound) bound
  expectKeyword .kwReturn
  let result ← exprWithin bound
  expect .semicolon
  expect .rbrace
  return ⟨← mark start, returnType, name, formals, locals, body, result⟩

/-- A method where the fields of its class are over. -/
def member (bound : Nat) : Parser MethodDecl := do
  if (← get).startsField then fail .fieldAfterMethod else methodDecl bound

/-- The name of a superclass, if one is given. -/
def superclass : Parser (Option String) := do
  if ← accept (.ofKeyword .kwExtends) then
    return some (← identifier)
  else
    return none

/-- A class. -/
def classDecl (bound : Nat) : Parser ClassDecl := do
  let start ← here
  expectKeyword .kwClass
  let name ← identifier
  let superName ← superclass
  expect .lbrace
  let fields ← many Cursor.startsField varDecl bound
  let methods ← manyUntil .rbrace (.unterminatedClass name) (member bound) bound
  expect .rbrace
  return ⟨← mark start, name, superName, fields, methods⟩

/-- The main class. -/
def mainClass (bound : Nat) : Parser MainClass := do
  let start ← here
  expectKeyword .kwClass
  let name ← identifier
  expect .lbrace
  expectKeyword .kwPublic
  expectKeyword .kwStatic
  expectKeyword .kwVoid
  expectWord "main"
  expect .lparen
  expectWord "String"
  expect .lbracket
  expect .rbracket
  let argsName ← identifier
  expect .rparen
  expect .lbrace
  let body ← stmtWithin bound
  expect .rbrace
  expect .rbrace
  return ⟨← mark start, name, argsName, body⟩

/-- The span from the main class to the last class. -/
def programSpan (main : MainClass) (classes : List ClassDecl) : Span :=
  match classes.getLast? with
  | some c => main.node.span.merge c.node.span
  | none => main.node.span

/-- A program, if at most `bound` tokens are left. -/
def programWithin (bound : Nat) : Parser Program := do
  let main ← mainClass bound
  let classes ← many (fun c => !c.atEnd) (classDecl bound) bound
  return ⟨main, classes, programSpan main classes⟩

/-- A program, up to the end of the text. -/
def program : Parser Program := do
  programWithin (← get).rest.length

end Demitasse.Parser
