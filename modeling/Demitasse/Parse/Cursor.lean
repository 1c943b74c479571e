import Demitasse.Program.Basic
import Demitasse.Token.Basic

/-! The state of reading a program off its lexemes. A cursor holds the lexemes that are left, the span
of the lexeme read last and the next free node identity. A parser moves the cursor forward and keeps
it where it is when it fails. -/

namespace Demitasse

/-- Why a list of tokens is not a program. -/
inductive SyntaxFault where
  | expectedToken (t : Token)
  | expectedKeyword (k : Keyword)
  | expectedWord (word : String)
  | expectedIdentifier
  | reservedWord (word : String)
  | expectedType
  | expectedStatement
  | expectedExpression
  | unexpectedKeyword (k : Keyword)
  | literalOutOfRange (value : Nat)
  | unterminatedBlock
  | unterminatedClass (name : String)
  | fieldAfterMethod
  | missingReturn (method : String)
deriving DecidableEq

/-- The message of a fault. -/
def SyntaxFault.message : SyntaxFault → String
  | .expectedToken t => "Expected " ++ t.title
  | .expectedKeyword k => "Expected keyword " ++ k.title
  | .expectedWord word => "Expected '" ++ word ++ "'"
  | .expectedIdentifier => "Expected identifier"
  | .reservedWord word => "Reserved word " ++ (Token.word word).title ++ " used as identifier"
  | .expectedType => "Expected type"
  | .expectedStatement => "Expected statement"
  | .expectedExpression => "Expected expression"
  | .unexpectedKeyword k => "Unexpected keyword " ++ k.title ++ " in expression"
  | .literalOutOfRange value => "Integer literal " ++ toString value ++ " out of range"
  | .unterminatedBlock => "Unterminated block"
  | .unterminatedClass name => "Unterminated class '" ++ name ++ "'"
  | .fieldAfterMethod => "Field declarations must precede method declarations"
  | .missingReturn method => "Method '" ++ method ++ "' has no return statement"

/-- A place in a list of lexemes. -/
structure Cursor where
  rest : List Lexeme
  last : Span
  /-- the number of the next node, which a counter of 32 bits holds for fewer than `2 ^ 32` nodes -/
  nextId : NodeId
deriving DecidableEq

namespace Cursor

/-- The place before the first lexeme. -/
def start (lexemes : List Lexeme) : Cursor :=
  ⟨lexemes, .origin, 0⟩

/-- The token `k` places ahead. -/
def token? (c : Cursor) (k : Nat) : Option Token :=
  c.rest[k]?.map (·.token)

/-- The next token. -/
def peek? (c : Cursor) : Option Token :=
  c.token? 0

/-- Whether `t` is the next token. -/
def sees (c : Cursor) (t : Token) : Bool :=
  c.peek? = some t

/-- Whether nothing is left. -/
def atEnd (c : Cursor) : Bool :=
  c.rest.isEmpty

/-- The span of the next token; at the end, the empty span behind the last token. -/
def here (c : Cursor) : Span :=
  match c.rest with
  | lexeme :: _ => lexeme.span
  | [] => c.last.after

/-- The cursor behind the next token. -/
def advance (c : Cursor) : Cursor :=
  match c.rest with
  | lexeme :: rest => { c with rest, last := lexeme.span }
  | [] => c

/-- Whether an identifier stands `k` places ahead. -/
def identifierAt (c : Cursor) (k : Nat) : Bool :=
  (c.token? k).any Token.isIdentifier

/-- The number of tokens in the type that starts here, told by its first two; zero if none does. -/
def typeWidth (c : Cursor) : Nat :=
  if c.sees (.ofKeyword .kwInt) then
    if c.token? 1 = some .lbracket then 3 else 1
  else if c.sees (.ofKeyword .kwBoolean) then 1
  else if c.identifierAt 0 then 1
  else 0

/-- Whether a type and a name stand here. -/
def startsVarDecl (c : Cursor) : Bool :=
  0 < c.typeWidth && c.identifierAt c.typeWidth

/-- Whether a type, a name and a semicolon stand here. -/
def startsField (c : Cursor) : Bool :=
  c.startsVarDecl && c.token? (c.typeWidth + 1) = some .semicolon

end Cursor

/-- Reading a value off a cursor. -/
abbrev Parser := EStateM (Located SyntaxFault) Cursor

namespace Parser

/-- Gives up because of the text at `span`. -/
def failAt {α : Type} (span : Span) (cause : SyntaxFault) : Parser α :=
  throw ⟨span, cause⟩

/-- The span of the next token. -/
def here : Parser Span :=
  return (← get).here

/-- Gives up because of the next token. -/
def fail {α : Type} (cause : SyntaxFault) : Parser α := do
  failAt (← here) cause

/-- The next token, which is not read. -/
def peek? : Parser (Option Token) :=
  return (← get).peek?

/-- Reads the next token. -/
def advance : Parser Unit :=
  modify Cursor.advance

/-- Reads `t` if it is next, and tells whether it was. -/
def accept (t : Token) : Parser Bool := do
  if (← get).sees t then
    advance
    return true
  else
    return false

/-- Reads `t`, and fails for `cause` if something else is next. -/
def require (t : Token) (cause : SyntaxFault) : Parser Unit := do
  if (← get).sees t then advance else fail cause

/-- Reads a given token. -/
def expect (t : Token) : Parser Unit :=
  require t (.expectedToken t)

/-- Reads a given reserved word. -/
def expectKeyword (k : Keyword) : Parser Unit :=
  require (.ofKeyword k) (.expectedKeyword k)

/-- Reads a given word that has a meaning in one place only and is not reserved. -/
def expectWord (word : String) : Parser Unit :=
  require (.word word) (.expectedWord word)

/-- Reads an identifier. -/
def identifier : Parser String := do
  match ← peek? with
  | some (.word text) =>
    if (Token.word text).isIdentifier then
      advance
      return text
    else
      fail (.reservedWord text)
  | _ => fail .expectedIdentifier

/-- A new node from `start` up to the token read last. -/
def mark (start : Span) : Parser Node :=
  modifyGet fun c => (⟨c.nextId, start.merge c.last⟩, { c with nextId := c.nextId + 1 })

end Parser

end Demitasse
