import Demitasse.Parse.Repeat

/-! Reading expressions. From loose to tight the levels are conjunction, comparison, sums, products,
negation and the suffixes of a primary expression; the operators associate to the left. An expression
inside another one starts behind a token of the outer one, so its bound is smaller by one. -/

namespace Demitasse.Parser

/-- The largest integer literal. -/
def maxLiteral : Nat :=
  0x7fffffff

/-- The operator of conjunctions. -/
def conjunctionOp : Token → Option BinOp
  | .andAnd => some .and
  | _ => none

/-- The operator of comparisons. -/
def comparisonOp : Token → Option BinOp
  | .less => some .less
  | _ => none

/-- The operators of sums. -/
def sumOp : Token → Option BinOp
  | .plus => some .add
  | .minus => some .sub
  | _ => none

/-- The operator of products. -/
def productOp : Token → Option BinOp
  | .star => some .mul
  | _ => none

/-- Continues `left` by operators of one level and their right operands. -/
def chain (operator : Token → Option BinOp) (operand : Parser Expr) : (bound : Nat) → Expr → Parser Expr
  | 0, left => return left
  | bound + 1, left => do
    match (← peek?).bind operator with
    | some op =>
      advance
      let right ← operand
      let node ← mark left.span
      chain operator operand bound (.binary node op left right)
    | none => return left

/-- Operands of one level with the operators between them. -/
def leftAssoc (operator : Token → Option BinOp) (bound : Nat) (operand : Parser Expr) : Parser Expr := do
  let left ← operand
  chain operator operand bound left

/-- An expression that starts with a word. -/
def wordExpr (nested : Parser Expr) (start : Span) (text : String) : Parser Expr := do
  match Keyword.ofSpelling? text with
  | some .kwTrue =>
    advance
    return .bool (← mark start) true
  | some .kwFalse =>
    advance
    return .bool (← mark start) false
  | some .kwThis =>
    advance
    return .this (← mark start)
  | some .kwNew =>
    advance
    if ← accept (.ofKeyword .kwInt) then
      expect .lbracket
      let size ← nested
      expect .rbracket
      return .newArray (← mark start) size
    else
      let className ← identifier
      expect .lparen
      expect .rparen
      return .newObject (← mark start) className
  | some k => fail (.unexpectedKeyword k)
  | none =>
    advance
    return .var (← mark start) text

/-- An expression without operators and suffixes. Parentheses leave no trace in the tree. -/
def primary (nested : Parser Expr) : Parser Expr := do
  let start ← here
  match ← peek? with
  | some (.integer value) =>
    advance
    if value ≤ maxLiteral then
      return .int (← mark start) value
    else
      failAt start (.literalOutOfRange value)
  | some .lparen =>
    advance
    let inner ← nested
    expect .rparen
    return inner
  | some (.word text) => wordExpr nested start text
  | _ => fail .expectedExpression

/-- Whether the length of an array is asked for, and not a method of that name called. -/
def seesLength (c : Cursor) : Bool :=
  c.sees (.word "length") && c.token? 1 ≠ some .lparen

/-- Continues `e`, which starts at `start`, by indices, lengths and calls. -/
def suffixes (nested : Parser Expr) (start : Span) : (bound : Nat) → Expr → Parser Expr
  | 0, e => return e
  | bound + 1, e => do
    match ← peek? with
    | some .lbracket =>
      advance
      let index ← nested
      expect .rbracket
      let node ← mark start
      suffixes nested start bound (.element node e index)
    | some .dot =>
      advance
      if seesLength (← get) then
        advance
        let node ← mark start
        suffixes nested start bound (.length node e)
      else
        let method ← identifier
        let args ← parenthesised nested bound
        let node ← mark start
        suffixes nested start bound (.call node e method args)
    | _ => return e

/-- A primary expression with its suffixes. -/
def suffixed (nested : Parser Expr) (bound : Nat) : Parser Expr := do
  let start ← here
  let e ← primary nested
  suffixes nested start bound e

/-- An operand behind any number of negations. -/
def negation (operand : Parser Expr) : (bound : Nat) → Parser Expr
  | 0 => operand
  | bound + 1 => do
    let start ← here
    if ← accept .bang then
      let e ← negation operand bound
      return .not (← mark start) e
    else
      operand

/-- An expression, if at most `bound` tokens are left. -/
def exprWithin : (bound : Nat) → Parser Expr
  | 0 => fail .expectedExpression
  | bound + 1 =>
    let operand := negation (suffixed (exprWithin bound) bound) (bound + 1)
    leftAssoc conjunctionOp bound <| leftAssoc comparisonOp bound <|
      leftAssoc sumOp bound <| leftAssoc productOp bound operand

/-- An expression. -/
def expr : Parser Expr := do
  exprWithin (← get).rest.length

end Demitasse.Parser
