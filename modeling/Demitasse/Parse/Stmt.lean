import Demitasse.Parse.Expr

/-! Reading statements. A statement inside another one starts behind a token of the outer one. -/

namespace Demitasse.Parser

/-- An assignment to a variable or to an element of an array. -/
def assignment (value : Parser Expr) (start : Span) : Parser Stmt := do
  let target ← identifier
  if ← accept .lbracket then
    let index ← value
    expect .rbracket
    expect .assign
    let element ← value
    expect .semicolon
    return .assignElement (← mark start) target index element
  else
    expect .assign
    let e ← value
    expect .semicolon
    return .assign (← mark start) target e

/-- A condition in parentheses. -/
def condition (value : Parser Expr) : Parser Expr := do
  expect .lparen
  let cond ← value
  expect .rparen
  return cond

/-- A statement that starts with a word. -/
def wordStmt (nested : Parser Stmt) (value : Parser Expr) (start : Span) (text : String) :
    Parser Stmt := do
  match Keyword.ofSpelling? text with
  | some .kwIf =>
    advance
    let cond ← condition value
    let thenBranch ← nested
    expectKeyword .kwElse
    let elseBranch ← nested
    return .ifElse (← mark start) cond thenBranch elseBranch
  | some .kwWhile =>
    advance
    let cond ← condition value
    let body ← nested
    return .loop (← mark start) cond body
  | some _ => fail .expectedStatement
  | none => assignment value start

/-- A statement whose inner statements are read by `nested` and whose expressions by `value`. -/
def stmtForm (nested : Parser Stmt) (value : Parser Expr) (bound : Nat) : Parser Stmt := do
  let start ← here
  match ← peek? with
  | some .lbrace =>
    advance
    let body ← manyUntil .rbrace .unterminatedBlock nested bound
    expect .rbrace
    return .block (← mark start) body
  | some .println =>
    advance
    let arg ← condition value
    expect .semicolon
    return .print (← mark start) arg
  | some (.word text) => wordStmt nested value start text
  | _ => fail .expectedStatement

/-- A statement, if at most `bound` tokens are left. -/
def stmtWithin : (bound : Nat) → Parser Stmt
  | 0 => fail .expectedStatement
  | bound + 1 => stmtForm (stmtWithin bound) (exprWithin bound) bound

end Demitasse.Parser
