import Demitasse.Proofs.Lexing
import Demitasse.Proofs.Patterns

/-! The rules by which a source text is cut into pieces. A rule has a pattern and says what a text of the pattern is
taken for. The scanner cuts off the longest text at the head of its input that any rule reads, and gives up where no
rule reads anything or where the text is a number that is too large. A text that is read to its end is therefore the
only sequence of such longest pieces, and cutting off what follows a sequence of pieces does not change the pieces.
-/

namespace Demitasse

open Computability

/-- The spelling of a token that is always written in the same way. -/
def Token.spelling? : Token → Option String
  | .integer _ | .word _ => none
  | .println => some "System.out.println"
  | .andAnd => some "&&"
  | .less => some "<"
  | .plus => some "+"
  | .minus => some "-"
  | .star => some "*"
  | .bang => some "!"
  | .assign => some "="
  | .lparen => some "("
  | .rparen => some ")"
  | .lbracket => some "["
  | .rbracket => some "]"
  | .lbrace => some "\x7b"
  | .rbrace => some "\x7d"
  | .comma => some ","
  | .semicolon => some ";"
  | .dot => some "."

/-- The rules: three for what is skipped, one for numbers, one for words and one for each token of a fixed spelling. -/
inductive Rule where
  | blanks | lineComment | closedComment | digits | word
  | fixed (t : Token)

namespace Rule

/-- The texts that a rule reads. -/
def pattern : Rule → Language Char
  | .blanks => someIn isBlank
  | .lineComment => exactly ['/', '/'] * (charIn (· ≠ '\n'))∗
  | .closedComment => blockComment
  | .digits => someIn Char.isDigit
  | .word => charIn Char.isAlpha * (charIn isWordChar)∗
  | .fixed t => t.spelling?.elim 0 fun text => exactly text.toList

/-- What a text that a rule reads is taken for. -/
def reading : Rule → List Char → Reading
  | .blanks, _ | .lineComment, _ | .closedComment, _ => .skipped
  | .digits, text => Piece.readDigits text
  | .word, text => .token (.word (String.ofList text))
  | .fixed t, _ => .token t

end Rule

/-- A rule reads `text` in front of `rest`, and no rule reads more. -/
structure Longest (rule : Rule) (text rest : List Char) : Prop where
  matched : text ∈ rule.pattern
  length_le : ∀ (other : Rule) (w : List Char), w ∈ other.pattern → w <+: text ++ rest → w.length ≤ text.length

/-- No rule reads anything at the head of an input. -/
def Stuck (input : List Char) : Prop :=
  ∀ (rule : Rule) (w : List Char), w ∈ rule.pattern → ¬ w <+: input

section
variable {t : Token} {c : Char} {cs w rest : List Char} {rule : Rule}

theorem Rule.mem_fixed : w ∈ (Rule.fixed t).pattern ↔ ∃ text, t.spelling? = some text ∧ w = text.toList := by
  rw [Rule.pattern]
  cases t.spelling? with
  | none => simp
  | some text => simp [mem_exactly]

/-- Apart from two tokens a fixed spelling is a single character. -/
theorem Token.spelling?_cases {text : String} (h : t.spelling? = some text) :
    t = .println ∨ t = .andAnd ∨ ∃ c, text.toList = [c] ∧ Token.ofChar? c = some t := by
  cases t with
  | integer | word => cases h
  | println => exact .inl rfl
  | andAnd => exact .inr (.inl rfl)
  | _ =>
      cases h
      exact .inr (.inr ⟨_, rfl, rfl⟩)

theorem Token.spelling?_of_ofChar? (h : Token.ofChar? c = some t) : t.spelling? = some (String.ofList [c]) := by
  rw [Token.ofChar?.eq_def] at h
  split at h
  all_goals cases h
  all_goals rfl

/-- A piece is at least as long as a text that a rule reads, some rule reads it, and it is taken for what the rule
says if it is that text. -/
structure Piece.Covers (piece : Piece) (rule : Rule) (w : List Char) : Prop where
  length_le : w.length ≤ piece.text.length
  reading : w = piece.text → piece.reading = rule.reading w
  matched : ∃ other : Rule, piece.text ∈ other.pattern

namespace Piece

theorem covers_self (piece : Piece) (hw : piece.text ∈ rule.pattern)
    (hreading : piece.reading = rule.reading piece.text) :
    piece.Covers rule piece.text :=
  ⟨Nat.le_refl _, fun _ => hreading, rule, hw⟩

/-- The longest run of a class covers every run of it. -/
theorem covers_run {inClass : Char → Bool} (hw : ∀ d ∈ w, inClass d = true) (hp : w <+: cs)
    (hmatched : c :: cs.takeWhile inClass ∈ rule.pattern) : (run rule.reading inClass c cs).Covers rule (c :: w) where
  length_le := by
    obtain ⟨more, rfl⟩ := hp
    rw [run, List.takeWhile_append_of_pos hw]
    simp
  reading h := congrArg rule.reading h.symm
  matched := ⟨rule, hmatched⟩

theorem takeWhile_mem (inClass : Char → Bool) (cs : List Char) : cs.takeWhile inClass ∈ (charIn inClass)∗ :=
  mem_kstar_charIn.mpr (List.all_eq_true.mp List.all_takeWhile)

/-- A first character of one class and a run of another one. -/
theorem covers_word {first inClass : Char → Bool} (hpattern : rule.pattern = charIn first * (charIn inClass)∗)
    (hw : w ∈ rule.pattern) (hp : w <+: c :: cs) : first c = true ∧ (run rule.reading inClass c cs).Covers rule w := by
  rw [hpattern] at hw
  obtain ⟨d, v, rfl, hd, hv⟩ := mem_charIn_mul_kstar.mp hw
  obtain ⟨rfl, htail⟩ := List.cons_prefix_cons.mp hp
  refine ⟨hd, covers_run hv htail ?_⟩
  rw [hpattern]
  exact mem_charIn_mul.mpr ⟨d, _, rfl, hd, takeWhile_mem inClass cs⟩

/-- A word does not go beyond the first dot of the print procedure's name. -/
theorem length_lt_of_println (hw : ∀ d ∈ w, isWordChar d = true) (hp : w <+: cs) (hprintln : printlnText <+: cs) :
    w.length < printlnText.length := by
  refine Nat.lt_of_not_le fun hle => ?_
  have hdot : '.' ∈ w := (List.prefix_of_prefix_length_le hprintln hp hle).subset (by decide)
  exact absurd (hw '.' hdot) (by decide)

theorem covers_of_word (hw : w ∈ Rule.word.pattern) (hp : w <+: c :: cs) : (next c cs).Covers .word w := by
  obtain ⟨hc, hrun⟩ := covers_word rfl hw hp
  rw [next_of_isAlpha hc]
  split
  · rename_i hprintln
    obtain ⟨d, v, rfl, hd, hv⟩ := mem_charIn_mul_kstar.mp hw
    have hall : ∀ e ∈ d :: v, isWordChar e = true := by
      refine List.forall_mem_cons.mpr ⟨?_, hv⟩
      simp [isWordChar, Char.isAlphanum, hd]
    have hlt := length_lt_of_println hall hp (List.isPrefixOf_iff_prefix.mp hprintln)
    refine ⟨Nat.le_of_lt hlt, fun h => ?_, .fixed .println, rfl⟩
    rw [h] at hlt
    exact absurd hlt (Nat.lt_irrefl _)
  · exact hrun

theorem covers_of_fixed (hw : w ∈ (Rule.fixed t).pattern) (hp : w <+: c :: cs) : (next c cs).Covers (.fixed t) w := by
  obtain ⟨text, htext, rfl⟩ := Rule.mem_fixed.mp hw
  rcases Token.spelling?_cases htext with rfl | rfl | ⟨d, hd, hchar⟩
  · cases htext
    have hprintln : printlnText.isPrefixOf (c :: cs) = true := List.isPrefixOf_iff_prefix.mpr hp
    obtain ⟨rfl, -⟩ := List.cons_prefix_cons.mp hp
    rw [next_of_isAlpha (by decide), if_pos hprintln]
    exact covers_self ⟨_, printlnText, _⟩ hw rfl
  · cases htext
    obtain ⟨rest, hrest⟩ := hp
    cases hrest
    exact covers_self ⟨_, ['&', '&'], rest⟩ hw rfl
  · rw [hd] at hp hw ⊢
    obtain ⟨rfl, -⟩ := List.cons_prefix_cons.mp hp
    rw [next_of_ofChar? hchar]
    exact covers_self ⟨_, [d], cs⟩ hw rfl

theorem covers_of_lineComment (hw : w ∈ Rule.lineComment.pattern) (hp : w <+: c :: cs) :
    (next c cs).Covers .lineComment w := by
  obtain ⟨v, rfl, hv⟩ := mem_exactly_mul.mp hw
  obtain ⟨more, hmore⟩ := hp
  cases hmore
  change (run Rule.lineComment.reading (· ≠ '\n') '/' ('/' :: (v ++ more))).Covers .lineComment ('/' :: '/' :: v)
  refine covers_run (List.forall_mem_cons.mpr ⟨rfl, mem_kstar_charIn.mp hv⟩) ⟨more, rfl⟩ ?_
  exact mem_exactly_mul.mpr ⟨_, rfl, takeWhile_mem (· ≠ '\n') (v ++ more)⟩

/-- Behind an opening mark the comment goes on to its end, and without one all the rest is unreadable. -/
theorem next_open (rest : List Char) :
    next '/' ('*' :: rest) = (commentBody rest).elim ⟨.unreadable, '/' :: '*' :: rest, []⟩
      fun body => ⟨.skipped, '/' :: '*' :: body.1, body.2⟩ := by
  rw [next, if_neg (by decide), if_neg (by decide), if_neg (by decide)]
  cases commentBody rest with
  | none => rfl
  | some body => rfl

theorem next_of_comment {u : List Char} (hu : Unclosed u) (after : List Char) :
    next '/' ('*' :: (u ++ closeMark ++ after)) = ⟨.skipped, '/' :: '*' :: (u ++ closeMark), after⟩ := by
  rw [next_open, commentBody_of_unclosed hu]
  rfl

theorem covers_of_closedComment (hw : w ∈ Rule.closedComment.pattern) (hp : w <+: c :: cs) :
    (next c cs).Covers .closedComment w := by
  obtain ⟨u, rfl, hu⟩ := mem_blockComment.mp hw
  obtain ⟨more, hmore⟩ := hp
  obtain ⟨rfl, rfl⟩ : c = '/' ∧ cs = '*' :: (u ++ closeMark ++ more) := by
    rw [List.append_assoc, List.append_assoc, ← List.append_assoc u] at hmore
    exact List.cons.inj hmore.symm
  rw [next_of_comment hu]
  exact covers_self ⟨_, '/' :: '*' :: (u ++ closeMark), more⟩ hw rfl

/-- The piece that is cut off covers whatever a rule reads. -/
theorem covers_of_mem (hw : w ∈ rule.pattern) (hp : w <+: c :: cs) : (next c cs).Covers rule w := by
  cases rule with
  | blanks =>
      obtain ⟨hc, hrun⟩ := covers_word rfl hw hp
      rw [next_of_isBlank hc]
      exact hrun
  | lineComment => exact covers_of_lineComment hw hp
  | closedComment => exact covers_of_closedComment hw hp
  | digits =>
      obtain ⟨hc, hrun⟩ := covers_word rfl hw hp
      rw [next_of_isDigit hc]
      exact hrun
  | word => exact covers_of_word hw hp
  | fixed t => exact covers_of_fixed hw hp

/-- What is skipped or taken for a token is read by a rule. -/
theorem exists_rule_of_readable (h : (next c cs).reading ≠ .unreadable) :
    ∃ rule : Rule, (next c cs).text ∈ rule.pattern := by
  unfold next at h ⊢
  split
  · exact ⟨.blanks, mem_charIn_mul.mpr ⟨c, _, rfl, ‹_›, takeWhile_mem isBlank cs⟩⟩
  split
  · exact ⟨.digits, mem_charIn_mul.mpr ⟨c, _, rfl, ‹_›, takeWhile_mem Char.isDigit cs⟩⟩
  split
  · split
    · exact ⟨.fixed .println, rfl⟩
    · exact ⟨.word, mem_charIn_mul.mpr ⟨c, _, rfl, ‹_›, takeWhile_mem isWordChar cs⟩⟩
  split
  · rename_i rest _ _ _
    exact ⟨.lineComment, mem_exactly_mul.mpr ⟨_, rfl, takeWhile_mem (· ≠ '\n') rest⟩⟩
  · split
    · obtain ⟨u, rfl, hu⟩ := exists_of_commentBody ‹_›
      exact ⟨.closedComment, mem_blockComment.mpr ⟨u, rfl, hu⟩⟩
    · simp_all
  · exact ⟨.fixed .andAnd, rfl⟩
  · split
    · rename_i t ht
      exact ⟨.fixed t, Rule.mem_fixed.mpr ⟨_, Token.spelling?_of_ofChar? ht, String.toList_ofList.symm⟩⟩
    · simp_all

/-- The scanner cuts off the longest text that a rule reads and takes it for what the rule says; where no rule reads
anything it gives up. -/
theorem next_cases (c : Char) (cs : List Char) :
    (∃ rule : Rule, Longest rule (next c cs).text (next c cs).rest ∧
      (next c cs).reading = rule.reading (next c cs).text) ∨
    (Stuck (c :: cs) ∧ (next c cs).reading = .unreadable) := by
  have hprefix : (next c cs).text <+: c :: cs := ⟨_, next_append c cs⟩
  by_cases hstuck : Stuck (c :: cs)
  · refine .inr ⟨hstuck, ?_⟩
    by_contra hreadable
    obtain ⟨rule, hrule⟩ := exists_rule_of_readable hreadable
    exact hstuck rule _ hrule hprefix
  · rw [Stuck] at hstuck
    push Not at hstuck
    obtain ⟨_, _, hw, hp⟩ := hstuck
    obtain ⟨rule, hrule⟩ := (covers_of_mem hw hp).matched
    refine .inl ⟨rule, ⟨hrule, fun other w hw hp => ?_⟩, (covers_of_mem hrule hprefix).reading rfl⟩
    rw [next_append] at hp
    exact (covers_of_mem hw hp).length_le

theorem exists_longest {reading : Reading} (h : (next c cs).reading = reading) (hreadable : reading ≠ .unreadable) :
    ∃ rule : Rule, Longest rule (next c cs).text (next c cs).rest ∧ rule.reading (next c cs).text = reading := by
  rcases next_cases c cs with ⟨rule, hlongest, hreading⟩ | ⟨-, hunreadable⟩
  · exact ⟨rule, hlongest, hreading.symm.trans h⟩
  · exact absurd (h.symm.trans hunreadable) hreadable

/-- The longest text that a rule reads is the piece that the scanner cuts off. -/
theorem next_of_longest {text : List Char} (h : Longest rule text rest) (heq : text ++ rest = c :: cs) :
    next c cs = ⟨rule.reading text, text, rest⟩ := by
  have hcovers : (next c cs).Covers rule text := covers_of_mem h.matched (heq ▸ List.prefix_append text rest)
  obtain ⟨other, hother⟩ := hcovers.matched
  have hprefix : (next c cs).text <+: text ++ rest := by
    rw [heq]
    exact ⟨_, next_append c cs⟩
  have hlength : (next c cs).text.length = text.length :=
    Nat.le_antisymm (h.length_le other _ hother hprefix) hcovers.length_le
  have happend : (next c cs).text ++ (next c cs).rest = text ++ rest := (next_append c cs).trans heq.symm
  obtain ⟨htext, hrest⟩ := List.append_inj happend hlength
  have hreading := hcovers.reading htext.symm
  rw [← hreading, ← htext, ← hrest]

end Piece

/-- No rule reads the empty text. -/
theorem Rule.ne_nil (hw : w ∈ rule.pattern) : w ≠ [] := by
  cases rule with
  | blanks | digits | word =>
      obtain ⟨c, rest, rfl, -⟩ := mem_charIn_mul.mp hw
      exact List.cons_ne_nil c rest
  | lineComment =>
      obtain ⟨rest, rfl, -⟩ := mem_exactly_mul.mp hw
      exact List.cons_ne_nil _ _
  | closedComment =>
      obtain ⟨u, rfl, -⟩ := mem_blockComment.mp hw
      exact List.cons_ne_nil _ _
  | fixed t =>
      obtain ⟨text, htext, rfl⟩ := Rule.mem_fixed.mp hw
      rcases Token.spelling?_cases htext with rfl | rfl | ⟨c, hc, -⟩
      · cases htext
        decide
      · cases htext
        decide
      · rw [hc]
        exact List.cons_ne_nil c []

end

/-- With `rest` behind it, `front` is a sequence of pieces, each the longest that a rule reads at its place. The
lexemes are the pieces that are taken for tokens, where `front` starts at byte `pos`. -/
inductive Cut (rest : List Char) : (pos : Nat) → (front : List Char) → List Lexeme → Prop
  | nil (pos : Nat) : Cut rest pos [] []
  | skipped {pos : Nat} {rule : Rule} {text front : List Char} {lexemes : List Lexeme}
      (hlongest : Longest rule text (front ++ rest)) (hreading : rule.reading text = .skipped)
      (hfront : Cut rest (pos + byteWidth text) front lexemes) : Cut rest pos (text ++ front) lexemes
  | token {pos : Nat} {rule : Rule} {text front : List Char} {lexemes : List Lexeme} {t : Token}
      (hlongest : Longest rule text (front ++ rest)) (hreading : rule.reading text = .token t)
      (hfront : Cut rest (pos + byteWidth text) front lexemes) :
      Cut rest pos (text ++ front) (⟨t, pos, pos + byteWidth text⟩ :: lexemes)

section
variable {pos : Nat} {front rest more text cs : List Char} {lexemes : List Lexeme} {rule : Rule}

theorem Longest.of_append (h : Longest rule text (rest ++ more)) : Longest rule text rest where
  matched := h.matched
  length_le other w hw hp := by
    refine h.length_le other w hw (hp.trans ?_)
    rw [← List.append_assoc]
    exact List.prefix_append _ _

/-- The pieces stay the same if a part of what follows them is taken away. -/
theorem Cut.of_append (h : Cut (rest ++ more) pos front lexemes) : Cut rest pos front lexemes := by
  induction h with
  | nil pos => exact .nil pos
  | skipped hlongest hreading _ ih =>
      rw [← List.append_assoc] at hlongest
      exact .skipped hlongest.of_append hreading ih
  | token hlongest hreading _ ih =>
      rw [← List.append_assoc] at hlongest
      exact .token hlongest.of_append hreading ih

/-- Two sequences of pieces, one behind the other. -/
theorem Cut.append {behind : List Char} {others : List Lexeme} (h : Cut (behind ++ rest) pos front lexemes)
    (h' : Cut rest (pos + byteWidth front) behind others) : Cut rest pos (front ++ behind) (lexemes ++ others) := by
  induction h with
  | nil pos => exact h'
  | skipped hlongest hreading _ ih =>
      rw [byteWidth_append, ← Nat.add_assoc] at h'
      rw [← List.append_assoc] at hlongest
      rw [List.append_assoc]
      exact .skipped hlongest hreading (ih h')
  | token hlongest hreading _ ih =>
      rw [byteWidth_append, ← Nat.add_assoc] at h'
      rw [← List.append_assoc] at hlongest
      rw [List.append_assoc]
      exact .token hlongest hreading (ih h')

/-- The piece that the scanner skips, in front of a sequence of pieces. -/
theorem Cut.skipped_next {c : Char} (hreading : (Piece.next c cs).reading = .skipped)
    (hrest : (Piece.next c cs).rest = front ++ rest)
    (h : Cut rest (pos + byteWidth (Piece.next c cs).text) front lexemes) :
    Cut rest pos ((Piece.next c cs).text ++ front) lexemes := by
  obtain ⟨rule, hlongest, hrule⟩ := Piece.exists_longest hreading Reading.noConfusion
  rw [hrest] at hlongest
  exact .skipped hlongest hrule h

/-- The piece that the scanner takes for a token, in front of a sequence of pieces. -/
theorem Cut.token_next {c : Char} {t : Token} (hreading : (Piece.next c cs).reading = .token t)
    (hrest : (Piece.next c cs).rest = front ++ rest)
    (h : Cut rest (pos + byteWidth (Piece.next c cs).text) front lexemes) :
    Cut rest pos ((Piece.next c cs).text ++ front)
      (⟨t, pos, pos + byteWidth (Piece.next c cs).text⟩ :: lexemes) := by
  obtain ⟨rule, hlongest, hrule⟩ := Piece.exists_longest hreading Reading.noConfusion
  rw [hrest] at hlongest
  exact .token hlongest hrule h

theorem map_nil_append (x : Except (Located LexicalFault) (List Lexeme)) : x.map ([] ++ ·) = x := by
  cases x <;> rfl

theorem map_cons_append (x : Except (Located LexicalFault) (List Lexeme)) (lexeme : Lexeme) (lexemes : List Lexeme) :
    (x.map (lexemes ++ ·)).map (lexeme :: ·) = x.map (lexeme :: lexemes ++ ·) := by
  cases x <;> rfl

/-- The scanner goes through a sequence of pieces and comes to what follows it. -/
theorem scanFrom_of_cut (h : Cut rest pos front lexemes) :
    scanFrom pos (front ++ rest) = (scanFrom (pos + byteWidth front) rest).map (lexemes ++ ·) := by
  have hcut : ∀ {rule : Rule} {text front : List Char}, Longest rule text (front ++ rest) →
      ∃ c cs, text ++ front ++ rest = c :: cs ∧ Piece.next c cs = ⟨rule.reading text, text, front ++ rest⟩ := by
    intro rule text front hlongest
    obtain ⟨c, word, rfl⟩ := List.exists_cons_of_ne_nil (Rule.ne_nil hlongest.matched)
    refine ⟨c, word ++ front ++ rest, rfl, Piece.next_of_longest hlongest ?_⟩
    rw [List.append_assoc word, List.cons_append]
  induction h with
  | nil pos => rw [map_nil_append]; rfl
  | skipped hlongest hreading _ ih =>
      obtain ⟨c, cs, heq, hnext⟩ := hcut hlongest
      rw [heq, scanFrom_of_skipped (by rw [hnext]; exact hreading), hnext, byteWidth_append, ← Nat.add_assoc]
      exact ih
  | token hlongest hreading _ ih =>
      obtain ⟨c, cs, heq, hnext⟩ := hcut hlongest
      rw [heq, scanFrom_of_token (by rw [hnext]; exact hreading), hnext, byteWidth_append, ← Nat.add_assoc,
        ← map_cons_append, ← ih]

theorem scanFrom_of_unreadable {c : Char} (h : (Piece.next c cs).reading = .unreadable) (pos : Nat) :
    scanFrom pos (c :: cs) =
      .error ⟨⟨pos, pos + byteWidth (Piece.next c cs).text⟩, ⟨String.ofList (Piece.next c cs).text⟩⟩ := by
  rw [scanFrom]
  simp only [h]

/-- Every text is a sequence of pieces up to its end or up to where the scanner gives up. -/
theorem exists_cut (pos : Nat) (cs : List Char) :
    ∃ front rest lexemes, cs = front ++ rest ∧ Cut rest pos front lexemes ∧
      ∀ c ds, rest = c :: ds → (Piece.next c ds).reading = .unreadable := by
  -- the scanner's own recursion: behind a piece the text is a sequence of pieces already
  induction pos, cs using scanFrom.induct with
  | case1 pos => exact ⟨[], [], [], rfl, .nil pos, fun c ds h => absurd h.symm (List.cons_ne_nil c ds)⟩
  | case2 pos c cs piece span hreading ih =>
      obtain ⟨front, rest, lexemes, hsplit, hcut, hend⟩ := ih
      refine ⟨piece.text ++ front, rest, lexemes, ?_, .skipped_next hreading hsplit hcut, hend⟩
      rw [List.append_assoc, ← hsplit, Piece.next_append]
  | case3 pos c cs piece span t hreading ih =>
      obtain ⟨front, rest, lexemes, hsplit, hcut, hend⟩ := ih
      refine ⟨piece.text ++ front, rest, _, ?_, .token_next hreading hsplit hcut, hend⟩
      rw [List.append_assoc, ← hsplit, Piece.next_append]
  | case4 pos c cs piece hreading =>
      refine ⟨[], c :: cs, [], rfl, .nil pos, fun d ds h => ?_⟩
      cases h
      exact hreading

/-- The scanner succeeds exactly where the whole text is a sequence of pieces. -/
theorem scanFrom_eq_ok_iff : scanFrom pos cs = .ok lexemes ↔ Cut [] pos cs lexemes := by
  constructor
  · intro h
    obtain ⟨front, rest, found, rfl, hcut, hend⟩ := exists_cut pos cs
    rw [scanFrom_of_cut hcut] at h
    cases rest with
    | nil =>
        rw [scanFrom] at h
        cases h
        simpa using hcut
    | cons c ds =>
        rw [scanFrom_of_unreadable (hend c ds rfl)] at h
        cases h
  · intro h
    have hscan := scanFrom_of_cut h
    rw [List.append_nil] at hscan
    rw [hscan, scanFrom]
    exact congrArg Except.ok (List.append_nil lexemes)

/-- The scanner fails behind a sequence of pieces, because of the piece that comes next. -/
theorem exists_cut_of_error {e : Located LexicalFault} (h : scanFrom pos cs = .error e) :
    ∃ front c ds lexemes, cs = front ++ c :: ds ∧ Cut (c :: ds) pos front lexemes ∧
      (Piece.next c ds).reading = .unreadable ∧
      e = ⟨⟨pos + byteWidth front, pos + byteWidth front + byteWidth (Piece.next c ds).text⟩,
        ⟨String.ofList (Piece.next c ds).text⟩⟩ := by
  obtain ⟨front, rest, lexemes, rfl, hcut, hend⟩ := exists_cut pos cs
  rw [scanFrom_of_cut hcut] at h
  cases rest with
  | nil =>
      rw [scanFrom] at h
      cases h
  | cons c ds =>
      rw [scanFrom_of_unreadable (hend c ds rfl)] at h
      cases h
      exact ⟨front, c, ds, lexemes, rfl, hcut, hend c ds rfl, rfl⟩

end

end Demitasse
