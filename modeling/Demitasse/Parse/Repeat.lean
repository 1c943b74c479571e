import Demitasse.Parse.Cursor

/-! Sequences of items. Every item reads a token, so `bound`, which is at least the number of tokens
that are left, also bounds the number of items. At bound zero nothing is left, and the sequence ends
as it does at the end of the text. -/

namespace Demitasse.Parser

variable {α : Type}

/-- Items as long as `more` holds of the cursor. It does not hold at the end of the text. -/
def many (more : Cursor → Bool) (item : Parser α) : (bound : Nat) → Parser (List α)
  | 0 => return []
  | bound + 1 => do
    if more (← get) then
      let a ← item
      let rest ← many more item bound
      return a :: rest
    else
      return []

/-- Items up to the token `stop`, which is not read; without one the sequence is unfinished. -/
def manyUntil (stop : Token) (unfinished : SyntaxFault) (item : Parser α) :
    (bound : Nat) → Parser (List α)
  | 0 => fail unfinished
  | bound + 1 => do
    let c ← get
    if c.sees stop then
      return []
    else if c.atEnd then
      fail unfinished
    else
      let a ← item
      let rest ← manyUntil stop unfinished item bound
      return a :: rest

/-- One or more items with a comma between them. -/
def separated (item : Parser α) : (bound : Nat) → Parser (List α)
  | 0 => return [← item]
  | bound + 1 => do
    let a ← item
    if ← accept .comma then
      let rest ← separated item bound
      return a :: rest
    else
      return [a]

/-- A list in parentheses, its items separated by commas. -/
def parenthesised (item : Parser α) (bound : Nat) : Parser (List α) := do
  expect .lparen
  let items ← if (← get).sees .rparen then pure [] else separated item bound
  expect .rparen
  return items

end Demitasse.Parser
