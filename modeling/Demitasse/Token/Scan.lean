import Demitasse.Token.Basic

/-! Reading tokens off a source text. `Piece.next` cuts the longest piece that one rule reads from
the head of the input, and `scanFrom` repeats it. The pieces of a text concatenate to the text, and
a piece is never empty, so scanning ends. -/

namespace Demitasse

/-- Characters between tokens. -/
def isBlank (c : Char) : Bool :=
  c = ' ' || c = '\t' || c = '\r' || c = '\n' || c = '\x0c'

/-- Characters of a word after its first letter. -/
def isWordChar (c : Char) : Bool :=
  c.isAlphanum || c = '_'

/-- The number written by a run of decimal digits. -/
def decimalValue (digits : List Char) : Nat :=
  digits.foldl (fun n c => 10 * n + (c.toNat - '0'.toNat)) 0

/-- The largest number that a token can hold. -/
def maxInteger : Nat :=
  0x7fffffffffffffff

/-- The print procedure's name. -/
def printlnText : List Char :=
  "System.out.println".toList

/-- The number of bytes of a text in UTF-8. -/
def byteWidth (text : List Char) : Nat :=
  text.foldl (fun width c => width + c.utf8Size) 0

/-- The tokens of a single character. -/
def Token.ofChar? : Char → Option Token
  | '<' => some .less
  | '+' => some .plus
  | '-' => some .minus
  | '*' => some .star
  | '!' => some .bang
  | '=' => some .assign
  | '(' => some .lparen
  | ')' => some .rparen
  | '[' => some .lbracket
  | ']' => some .rbracket
  | '\x7b' => some .lbrace
  | '\x7d' => some .rbrace
  | ',' => some .comma
  | ';' => some .semicolon
  | '.' => some .dot
  | _ => none

/-- Splits off a block comment's body, up to and including the first mark that closes it. -/
def commentBody : List Char → Option (List Char × List Char)
  | [] => none
  | '*' :: '/' :: rest => some (['*', '/'], rest)
  | c :: rest => (commentBody rest).map fun (body, after) => (c :: body, after)

/-- How a piece of the input is taken. -/
inductive Reading where
  /-- blanks and comments -/
  | skipped
  | token (t : Token)
  | unreadable
deriving DecidableEq

/-- A piece cut off the head of the input, and what follows it. -/
structure Piece where
  reading : Reading
  text : List Char
  rest : List Char

namespace Piece

/-- The longest run of characters in a class, after a first character that is kept in any case. -/
def run (reading : List Char → Reading) (inClass : Char → Bool) (c : Char) (cs : List Char) : Piece :=
  ⟨reading (c :: cs.takeWhile inClass), c :: cs.takeWhile inClass, cs.dropWhile inClass⟩

/-- A run of digits is a token if its number is small enough. -/
def readDigits (digits : List Char) : Reading :=
  if decimalValue digits ≤ maxInteger then .token (.integer (decimalValue digits)) else .unreadable

/-- The piece at the head of the nonempty input `c :: cs`. -/
def next (c : Char) (cs : List Char) : Piece :=
  if isBlank c then run (fun _ => .skipped) isBlank c cs
  else if c.isDigit then run readDigits Char.isDigit c cs
  else if c.isAlpha then
    if printlnText.isPrefixOf (c :: cs) then
      ⟨.token .println, printlnText, (c :: cs).drop printlnText.length⟩
    else run (fun text => .token (.word (String.ofList text))) isWordChar c cs
  else
    match c, cs with
    | '/', '/' :: rest => run (fun _ => .skipped) (· ≠ '\n') c ('/' :: rest)
    | '/', '*' :: rest =>
      match commentBody rest with
      | some (body, after) => ⟨.skipped, '/' :: '*' :: body, after⟩
      | none => ⟨.unreadable, '/' :: '*' :: rest, []⟩
    | '&', '&' :: rest => ⟨.token .andAnd, ['&', '&'], rest⟩
    | _, _ =>
      match Token.ofChar? c with
      | some t => ⟨.token t, [c], cs⟩
      | none => ⟨.unreadable, [c], cs⟩

theorem commentBody_append {cs body after : List Char} (h : commentBody cs = some (body, after)) :
    body ++ after = cs := by
  fun_induction commentBody cs generalizing body after with
  | case1 => simp at h
  | case2 rest => simp at h; simp [← h.1, ← h.2]
  | case3 c rest _ ih =>
    obtain ⟨⟨b, a⟩, hb, he⟩ := Option.map_eq_some_iff.1 h
    simp at he
    simp [← he.1, ← he.2, ih hb]

/-- Nothing is lost: a piece and what follows it make up the input. -/
theorem next_append (c : Char) (cs : List Char) :
    (next c cs).text ++ (next c cs).rest = c :: cs := by
  unfold next
  split
  · simp [run]
  split
  · simp [run]
  split
  · split
    · rename_i h
      have hp := List.isPrefixOf_iff_prefix.1 h
      obtain ⟨t, ht⟩ := hp
      simp [← ht]
    · simp [run]
  split
  · simp [run]
  · split
    · rename_i h
      simp [commentBody_append h]
    · simp
  · simp
  · split <;> simp

theorem printlnText_ne_nil : printlnText ≠ [] := by
  decide

/-- A piece is not empty. -/
theorem next_text_ne_nil (c : Char) (cs : List Char) : (next c cs).text ≠ [] := by
  unfold next
  split
  · simp [run]
  split
  · simp [run]
  split
  · split
    · exact printlnText_ne_nil
    · simp [run]
  split
  · simp [run]
  · split <;> simp
  · simp
  · split <;> simp

/-- What follows a piece is shorter than the input. -/
theorem length_next_rest_lt (c : Char) (cs : List Char) :
    (next c cs).rest.length < (c :: cs).length := by
  have h := congrArg List.length (next_append c cs)
  have hpos := List.length_pos_iff.2 (next_text_ne_nil c cs)
  simp only [List.length_append] at h
  omega

end Piece

/-- A text that no rule reads. -/
structure LexicalFault where
  text : String
deriving DecidableEq

/-- The message of a lexical fault. -/
def LexicalFault.message (e : LexicalFault) : String :=
  "Unexpected input '" ++ e.text ++ "'"

/-- The lexemes of an input that starts at byte `pos` of the source. -/
def scanFrom (pos : Nat) : List Char → Except (Located LexicalFault) (List Lexeme)
  | [] => .ok []
  | c :: cs =>
    let piece := Piece.next c cs
    let span : Span := ⟨pos, pos + byteWidth piece.text⟩
    match piece.reading with
    | .skipped => scanFrom span.stop piece.rest
    | .token t => (scanFrom span.stop piece.rest).map (⟨t, span⟩ :: ·)
    | .unreadable => .error ⟨span, ⟨String.ofList piece.text⟩⟩
termination_by input => input.length
decreasing_by all_goals exact Piece.length_next_rest_lt c cs

/-- The lexemes of a source text. -/
def scan (source : String) : Except (Located LexicalFault) (List Lexeme) :=
  scanFrom 0 source.toList

end Demitasse
