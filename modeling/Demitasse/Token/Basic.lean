import Demitasse.Text.Dump
import Demitasse.Text.Span

/-! Tokens of MiniJava. Reserved words are read as words and recognised afterwards, so a token
keeps the spelling of its word whether it is reserved or not. -/

namespace Demitasse

/-- The reserved words. -/
inductive Keyword where
  | kwClass | kwExtends | kwPublic | kwStatic | kwVoid
  | kwInt | kwBoolean
  | kwIf | kwElse | kwWhile | kwReturn
  | kwTrue | kwFalse | kwThis | kwNew
deriving DecidableEq

namespace Keyword

/-- All reserved words. -/
def all : List Keyword :=
  [kwClass, kwExtends, kwPublic, kwStatic, kwVoid, kwInt, kwBoolean, kwIf, kwElse, kwWhile, kwReturn,
    kwTrue, kwFalse, kwThis, kwNew]

/-- The word itself. -/
def spelling : Keyword → String
  | kwClass => "class"
  | kwExtends => "extends"
  | kwPublic => "public"
  | kwStatic => "static"
  | kwVoid => "void"
  | kwInt => "int"
  | kwBoolean => "boolean"
  | kwIf => "if"
  | kwElse => "else"
  | kwWhile => "while"
  | kwReturn => "return"
  | kwTrue => "true"
  | kwFalse => "false"
  | kwThis => "this"
  | kwNew => "new"

/-- The name under which a reserved word appears in messages. -/
def title : Keyword → String
  | kwClass => "Class"
  | kwExtends => "Extends"
  | kwPublic => "Public"
  | kwStatic => "Static"
  | kwVoid => "Void"
  | kwInt => "Int"
  | kwBoolean => "Boolean"
  | kwIf => "If"
  | kwElse => "Else"
  | kwWhile => "While"
  | kwReturn => "Return"
  | kwTrue => "True"
  | kwFalse => "False"
  | kwThis => "This"
  | kwNew => "New"

/-- The reserved word with the given spelling. -/
def ofSpelling? (word : String) : Option Keyword :=
  all.find? fun k => k.spelling = word

end Keyword

/-- What the scanner reads off a source text. -/
inductive Token where
  /-- a decimal number, by its value -/
  | integer (value : Nat)
  /-- an identifier or a reserved word -/
  | word (text : String)
  /-- the dotted name of the print procedure, which is a single token -/
  | println
  | andAnd | less | plus | minus | star | bang | assign
  | lparen | rparen | lbracket | rbracket | lbrace | rbrace
  | comma | semicolon | dot
deriving DecidableEq

namespace Token

/-- The token of a reserved word. -/
def ofKeyword (k : Keyword) : Token :=
  .word k.spelling

/-- The reserved word that a token is, if it is one. -/
def keyword? : Token → Option Keyword
  | .word text => Keyword.ofSpelling? text
  | _ => none

/-- Words that are not reserved. -/
def isIdentifier : Token → Bool
  | .word text => (Keyword.ofSpelling? text).isNone
  | _ => false

/-- A token as messages and listings show it. -/
def dump : Token → Text.Dump
  | .integer value => .tuple "Integer" [.number value]
  | .word text => .tuple "Identifier" [.string text]
  | .println => .atom "Println"
  | .andAnd => .atom "AndAnd"
  | .less => .atom "Lt"
  | .plus => .atom "Plus"
  | .minus => .atom "Minus"
  | .star => .atom "Star"
  | .bang => .atom "Bang"
  | .assign => .atom "Assign"
  | .lparen => .atom "LParen"
  | .rparen => .atom "RParen"
  | .lbracket => .atom "LBracket"
  | .rbracket => .atom "RBracket"
  | .lbrace => .atom "LBrace"
  | .rbrace => .atom "RBrace"
  | .comma => .atom "Comma"
  | .semicolon => .atom "Semicolon"
  | .dot => .atom "Dot"

/-- The text of `dump`. -/
def title (t : Token) : String :=
  t.dump.compact

end Token

/-- A token with the bytes it was read from. -/
structure Lexeme where
  token : Token
  span : Span
deriving DecidableEq

end Demitasse
