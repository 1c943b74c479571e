import Demitasse.Proofs.LongestMatch

/-! How lexemes divide a source text. Every byte of a text that is scanned without error belongs to one lexeme or to
a gap between two of them, and every gap is made up of blanks and comments. Where the scanner fails, all text before
is scanned without error, and what comes next is read by no rule or is a number that is too large. -/

namespace Demitasse

open Computability

/-- The bytes of a span hold `text`, which `after` follows. As texts are made up of characters, the span starts and
stops between two of them. -/
def Span.Holds (span : Span) (source text after : String) : Prop :=
  ∃ before, source = before ++ text ++ after ∧ span = ⟨before.utf8ByteSize, (before ++ text).utf8ByteSize⟩

/-- A text writes a number in decimal, with any number of zeros in front. -/
def WritesNumber (text : String) (n : Nat) : Prop :=
  ∃ zeros, text = String.ofList (List.replicate zeros '0') ++ toString n

/-- How a token is written in a source text. -/
def Token.WrittenAs (t : Token) (text : String) : Prop :=
  match t with
  | .integer n => WritesNumber text n ∧ n ≤ maxInteger
  | .word name => text = name ∧ IsWord text.toList
  | t => t.spelling? = some text

/-- What may stand between tokens. -/
def gapText : Language Char :=
  (Rule.blanks.pattern + Rule.lineComment.pattern + Rule.closedComment.pattern)∗

/-- The spans in front of, between and behind lexemes, from byte `pos` up to byte `stop`. -/
def gaps (stop : Nat) : (pos : Nat) → List Lexeme → List Span
  | pos, [] => [⟨pos, stop⟩]
  | pos, l :: lexemes => ⟨pos, l.span.start⟩ :: gaps stop l.span.stop lexemes

/-- Lexemes divide a source text from byte `pos` on. -/
structure Partitions (pos : Nat) (lexemes : List Lexeme) (source : String) : Prop where
  ahead : ∀ l ∈ lexemes, pos ≤ l.span.start
  nonempty : ∀ l ∈ lexemes, l.span.start < l.span.stop
  disjoint : lexemes.Pairwise fun l m => l.span.stop ≤ m.span.start
  written : ∀ l ∈ lexemes, ∃ text after, l.span.Holds source text after ∧ l.token.WrittenAs text ∧
    ∃ rule, Longest rule text.toList after.toList
  gaps : ∀ gap ∈ gaps source.utf8ByteSize pos lexemes,
    ∃ text after, gap.Holds source text after ∧ text.toList ∈ gapText

/-- An error is about `text`: everything before it is scanned, and nothing can be read there but a number that is too
large. -/
structure GivesUp (e : Located LexicalFault) (before text after : String) : Prop where
  located : e = ⟨⟨before.utf8ByteSize, (before ++ text).utf8ByteSize⟩, ⟨text⟩⟩
  nonempty : text ≠ ""
  scanned : ∃ lexemes, scan before = .ok lexemes
  reason : Stuck (text ++ after).toList ∨
    Longest .digits text.toList after.toList ∧ ∃ n, maxInteger < n ∧ WritesNumber text n

section
variable {rule : Rule} {w text : List Char} {t : Token}

theorem digitChar_of_isDigit {c : Char} (h : c.isDigit = true) :
    c.toNat - '0'.toNat < 10 ∧ (c.toNat - '0'.toNat).digitChar = c := by
  obtain ⟨hzero, hnine⟩ := Char.isDigit_iff_toNat.mp h
  change 48 ≤ c.toNat at hzero
  change c.toNat ≤ 57 at hnine
  change c.toNat - 48 < 10 ∧ (c.toNat - 48).digitChar = c
  have hlt : c.toNat - 48 < 10 := by omega
  have hchar : c = Char.ofNat (48 + (c.toNat - 48)) := by
    rw [Nat.add_sub_cancel' hzero, Char.ofNat_toNat]
  refine ⟨hlt, ?_⟩
  generalize c.toNat - 48 = d at hlt hchar
  subst hchar
  decide +revert

/-- A run of digits is the decimal form of its value behind some zeros. -/
theorem exists_zeros (hne : w ≠ []) (hw : ∀ d ∈ w, d.isDigit = true) :
    ∃ zeros, w = List.replicate zeros '0' ++ Nat.toDigits 10 (decimalValue w) := by
  induction w using List.reverseRecOn with
  | nil => exact absurd rfl hne
  | append_singleton ds d ih =>
      obtain ⟨hds, hd⟩ := List.forall_mem_append.mp hw
      obtain ⟨hlt, hchar⟩ := digitChar_of_isDigit (hd d (List.mem_singleton_self d))
      have hlast : Nat.toDigits 10 (d.toNat - '0'.toNat) = [d] := by
        rw [Nat.toDigits_of_lt_base hlt, hchar]
      have hvalue : decimalValue (ds ++ [d]) = 10 * decimalValue ds + (d.toNat - '0'.toNat) := by
        rw [decimalValue, List.foldl_append]
        rfl
      rw [hvalue]
      by_cases hempty : ds = []
      · subst hempty
        refine ⟨0, ?_⟩
        rw [show 10 * decimalValue [] + (d.toNat - '0'.toNat) = d.toNat - '0'.toNat from Nat.zero_add _, hlast]
        rfl
      · obtain ⟨zeros, hzeros⟩ := ih hempty hds
        -- a value of zero is one more zero in front
        rcases Nat.eq_zero_or_pos (decimalValue ds) with hvalue | hpos
        · rw [hvalue, Nat.toDigits_zero] at hzeros
          refine ⟨zeros + 1, ?_⟩
          rw [hvalue, Nat.mul_zero, Nat.zero_add, hlast, List.replicate_succ', ← hzeros]
        · refine ⟨zeros, ?_⟩
          rw [← Nat.toDigits_append_toDigits (by decide) hpos hlt, hlast, ← List.append_assoc, ← hzeros]

theorem writesNumber_of_digits (hw : w ∈ Rule.digits.pattern) : WritesNumber (String.ofList w) (decimalValue w) := by
  obtain ⟨c, cs, rfl, hc, hcs⟩ := mem_charIn_mul_kstar.mp hw
  obtain ⟨zeros, hzeros⟩ := exists_zeros (List.cons_ne_nil c cs) (List.forall_mem_cons.mpr ⟨hc, hcs⟩)
  refine ⟨zeros, ?_⟩
  rw [Nat.toString_eq_ofList_toDigits, ← String.ofList_append, ← hzeros]

/-- What a rule takes for a token is written as that token. -/
theorem Rule.writtenAs (hw : w ∈ rule.pattern) (h : rule.reading w = .token t) : t.WrittenAs (String.ofList w) := by
  cases rule with
  | blanks | lineComment | closedComment => cases h
  | digits =>
      rw [Rule.reading, Piece.readDigits] at h
      split at h
      · cases h
        exact ⟨writesNumber_of_digits hw, ‹_›⟩
      · cases h
  | word =>
      cases h
      obtain ⟨c, cs, rfl, hc, hcs⟩ := mem_charIn_mul_kstar.mp hw
      exact ⟨rfl, c, cs, String.toList_ofList, hc, hcs⟩
  | fixed t =>
      cases h
      obtain ⟨text, htext, rfl⟩ := Rule.mem_fixed.mp hw
      rw [String.ofList_toList]
      cases t with
      | integer | word => cases htext
      | _ => exact htext

/-- A rule of which a text cannot be read is the rule of numbers, and the number is too large. -/
theorem Rule.too_large (hw : w ∈ rule.pattern) (h : rule.reading w = .unreadable) :
    rule = .digits ∧ ∃ n, maxInteger < n ∧ WritesNumber (String.ofList w) n := by
  cases rule with
  | digits =>
      rw [Rule.reading, Piece.readDigits] at h
      split at h
      · cases h
      · exact ⟨rfl, _, Nat.lt_of_not_le ‹_›, writesNumber_of_digits hw⟩
  | _ => cases h

/-- A skipped piece in front of a gap makes a longer gap. -/
theorem append_mem_gapText {gap : List Char} (htext : text ∈ rule.pattern) (h : rule.reading text = .skipped)
    (hgap : gap ∈ gapText) : text ++ gap ∈ gapText := by
  have hskipped : text ∈ Rule.blanks.pattern + Rule.lineComment.pattern + Rule.closedComment.pattern := by
    cases rule with
    | blanks => exact .inl (.inl htext)
    | lineComment => exact .inl (.inr htext)
    | closedComment => exact .inr htext
    | digits =>
        rw [Rule.reading, Piece.readDigits] at h
        split at h <;> cases h
    | word | fixed => cases h
  have hmem := Language.append_mem_mul hskipped hgap
  rw [gapText] at hmem ⊢
  exact mul_kstar_le_kstar (a := Rule.blanks.pattern + Rule.lineComment.pattern + Rule.closedComment.pattern) hmem

/-- A sequence of pieces is a gap, or it starts with a gap and a lexeme. -/
theorem Cut.leading_gap {rest front : List Char} {pos : Nat} {lexemes : List Lexeme} (h : Cut rest pos front lexemes) :
    ∃ gap ∈ gapText, (front = gap ∧ lexemes = []) ∨
      ∃ (rule : Rule) (text : List Char) (t : Token) (behind : List Char) (others : List Lexeme),
        front = gap ++ (text ++ behind) ∧ Longest rule text (behind ++ rest) ∧ rule.reading text = .token t ∧
        lexemes = ⟨t, pos + byteWidth gap, pos + byteWidth gap + byteWidth text⟩ :: others ∧
        Cut rest (pos + byteWidth gap + byteWidth text) behind others := by
  induction h with
  | nil pos => exact ⟨[], Language.nil_mem_kstar _, .inl ⟨rfl, rfl⟩⟩
  | @skipped pos rule text front lexemes hlongest hreading _ ih =>
      obtain ⟨gap, hgap, hfront⟩ := ih
      refine ⟨text ++ gap, append_mem_gapText hlongest.matched hreading hgap, ?_⟩
      rcases hfront with ⟨rfl, rfl⟩ | ⟨rule', text', t, behind, others, rfl, hlongest', hreading', rfl, hcut⟩
      · exact .inl ⟨rfl, rfl⟩
      · refine .inr ⟨rule', text', t, behind, others, (List.append_assoc _ _ _).symm, hlongest', hreading', ?_, ?_⟩
        · rw [byteWidth_append, Nat.add_assoc pos]
        · rw [byteWidth_append, ← Nat.add_assoc pos]
          exact hcut
  | @token pos rule text front lexemes t hlongest hreading hcut _ =>
      exact ⟨[], Language.nil_mem_kstar _, .inr ⟨rule, text, t, front, lexemes, rfl, hlongest, hreading, rfl, hcut⟩⟩

end

section
variable {source : String} {before text after : List Char}

theorem byteWidth_ofList (cs : List Char) : byteWidth cs = (String.ofList cs).utf8ByteSize := by
  rw [← byteWidth_toList, String.toList_ofList]

theorem byteWidth_pos (h : text ≠ []) : 0 < byteWidth text := by
  obtain ⟨c, cs, rfl⟩ := List.exists_cons_of_ne_nil h
  rw [byteWidth_cons]
  exact Nat.add_pos_left c.utf8Size_pos _

theorem holds_of_toList (h : source.toList = before ++ (text ++ after)) :
    Span.Holds ⟨byteWidth before, byteWidth before + byteWidth text⟩ source (String.ofList text)
      (String.ofList after) := by
  refine ⟨String.ofList before, ?_, ?_⟩
  · rw [← String.ofList_append, ← String.ofList_append, List.append_assoc, ← h, String.ofList_toList]
  · rw [String.utf8ByteSize_append, byteWidth_ofList, byteWidth_ofList]

theorem partitions_nil {gap : List Char} (hsource : source.toList = before ++ gap) (hgap : gap ∈ gapText) :
    Partitions (byteWidth before) [] source := by
  refine ⟨List.forall_mem_nil _, List.forall_mem_nil _, .nil, List.forall_mem_nil _, ?_⟩
  refine List.forall_mem_singleton.mpr ⟨String.ofList gap, "", ?_, ?_⟩
  · have hsplit : source.toList = before ++ (gap ++ []) := by rw [hsource, List.append_nil]
    rw [← byteWidth_toList, hsource, byteWidth_append]
    exact holds_of_toList hsplit
  · rw [String.toList_ofList]
    exact hgap

/-- A gap and a token in front of a text that is divided. -/
theorem Partitions.cons {gap behind : List Char} {rule : Rule} {t : Token} {lexemes : List Lexeme}
    (hsource : source.toList = before ++ (gap ++ (text ++ behind))) (hgap : gap ∈ gapText)
    (hlongest : Longest rule text behind) (hreading : rule.reading text = .token t)
    (h : Partitions (byteWidth (before ++ gap ++ text)) lexemes source) :
    Partitions (byteWidth before)
      (⟨t, byteWidth before + byteWidth gap, byteWidth before + byteWidth gap + byteWidth text⟩ :: lexemes) source := by
  have hsplit : source.toList = (before ++ gap) ++ (text ++ behind) := by rw [hsource, List.append_assoc]
  have hspan : byteWidth (before ++ gap ++ text) = byteWidth before + byteWidth gap + byteWidth text := by
    rw [byteWidth_append, byteWidth_append]
  rw [hspan] at h
  refine ⟨?_, ?_, List.pairwise_cons.mpr ⟨h.ahead, h.disjoint⟩, ?_, ?_⟩
  · refine List.forall_mem_cons.mpr ⟨Nat.le_add_right _ _, fun m hm => ?_⟩
    have hahead := h.ahead m hm
    omega
  · have hpos := byteWidth_pos (Rule.ne_nil hlongest.matched)
    exact List.forall_mem_cons.mpr ⟨Nat.lt_add_of_pos_right hpos, h.nonempty⟩
  · refine List.forall_mem_cons.mpr ⟨⟨String.ofList text, String.ofList behind, ?_, ?_, rule, ?_⟩, h.written⟩
    · have hholds := holds_of_toList hsplit
      rw [byteWidth_append] at hholds
      exact hholds
    · exact Rule.writtenAs hlongest.matched hreading
    · rw [String.toList_ofList, String.toList_ofList]
      exact hlongest
  · refine List.forall_mem_cons.mpr ⟨⟨String.ofList gap, String.ofList (text ++ behind), ?_, ?_⟩, h.gaps⟩
    · exact holds_of_toList hsource
    · rw [String.toList_ofList]
      exact hgap

/-- The lexemes of a sequence of pieces divide the text. -/
theorem partitions_of_cut {lexemes : List Lexeme} : ∀ (before : List Char) {cs : List Char},
    source.toList = before ++ cs → Cut [] (byteWidth before) cs lexemes →
      Partitions (byteWidth before) lexemes source := by
  induction lexemes with
  | nil =>
      intro before cs hsource hcut
      obtain ⟨gap, hgap, ⟨rfl, -⟩ | ⟨_, _, _, _, _, _, _, _, hcons, _⟩⟩ := hcut.leading_gap
      · exact partitions_nil hsource hgap
      · cases hcons
  | cons l lexemes ih =>
      intro before cs hsource hcut
      obtain ⟨gap, hgap, ⟨-, hnil⟩ | ⟨rule, text, t, behind, others, rfl, hlongest, hreading, heq, hrest⟩⟩ :=
        hcut.leading_gap
      · cases hnil
      cases heq
      rw [List.append_nil] at hlongest
      have hbehind : source.toList = before ++ gap ++ text ++ behind := by
        rw [hsource, List.append_assoc, List.append_assoc]
      rw [← byteWidth_append, ← byteWidth_append] at hrest
      exact .cons hsource hgap hlongest hreading (ih _ hbehind hrest)

/-- Where the scanner fails it has read everything before, and no rule helps it on. -/
theorem exists_givesUp {e : Located LexicalFault} (h : scan source = .error e) :
    ∃ before text after, source = before ++ text ++ after ∧ GivesUp e before text after := by
  obtain ⟨front, c, ds, lexemes, hsource, hcut, hreading, rfl⟩ := exists_cut_of_error h
  have hpiece := Piece.next_append c ds
  refine ⟨String.ofList front, String.ofList (Piece.next c ds).text, String.ofList (Piece.next c ds).rest, ?_, ?_⟩
  · rw [← String.ofList_append, ← String.ofList_append, List.append_assoc, hpiece, ← hsource, String.ofList_toList]
  refine ⟨?_, ?_, ⟨lexemes, ?_⟩, ?_⟩
  · rw [Nat.zero_add, String.utf8ByteSize_append, byteWidth_ofList, byteWidth_ofList]
  · intro hempty
    have htext := congrArg String.toList hempty
    rw [String.toList_ofList] at htext
    exact Piece.next_text_ne_nil c ds htext
  · rw [scan, String.toList_ofList]
    exact scanFrom_eq_ok_iff.mpr (Cut.of_append (show Cut ([] ++ c :: ds) 0 front lexemes from hcut))
  · rw [← String.ofList_append, String.toList_ofList, String.toList_ofList, String.toList_ofList, hpiece]
    rcases Piece.next_cases c ds with ⟨rule, hlongest, hrule⟩ | ⟨hstuck, -⟩
    · obtain ⟨rfl, hlarge⟩ := Rule.too_large hlongest.matched (hrule.symm.trans hreading)
      exact .inr ⟨hlongest, hlarge⟩
    · exact .inl hstuck

end

/-- A text that is scanned without error is divided by its lexemes into written tokens and gaps. Otherwise the error is
about the first text that cannot be read. -/
theorem tokens_partition_source (source : String) :
    (∀ lexemes, scan source = .ok lexemes → Partitions 0 lexemes source) ∧
    ∀ e, scan source = .error e →
      ∃ before text after, source = before ++ text ++ after ∧ GivesUp e before text after :=
  ⟨fun _ h => partitions_of_cut [] rfl (scanFrom_eq_ok_iff.mp h), fun _ h => exists_givesUp h⟩

/-- A number with zeros in front, and a comment in which a character has two bytes. -/
def paddedSource : String :=
  "n=007/*π*/;"

/-- The same comment in front of a letter that no token starts with. -/
def accentSource : String :=
  "n=1/*π*/é;"

theorem tokens_partition_source_accent : ∃ lexemes e before text after,
    scan paddedSource = .ok lexemes ∧ Partitions 0 lexemes paddedSource ∧
    lexemes = [⟨.word "n", 0, 1⟩, ⟨.assign, 1, 2⟩, ⟨.integer 7, 2, 5⟩, ⟨.semicolon, 11, 12⟩] ∧
    scan accentSource = .error e ∧ e.span = ⟨9, 11⟩ ∧ accentSource = before ++ text ++ after ∧
    GivesUp e before text after := by
  have hscan : scan paddedSource =
      .ok [⟨.word "n", 0, 1⟩, ⟨.assign, 1, 2⟩, ⟨.integer 7, 2, 5⟩, ⟨.semicolon, 11, 12⟩] := by decide +kernel
  have hfail : scan accentSource = .error ⟨⟨9, 11⟩, ⟨"é"⟩⟩ := by decide +kernel
  obtain ⟨before, text, after, hsource, hgivesUp⟩ := (tokens_partition_source accentSource).2 _ hfail
  have hpartition := (tokens_partition_source paddedSource).1 _ hscan
  exact ⟨_, _, before, text, after, hscan, hpartition, rfl, hfail, rfl, hsource, hgivesUp⟩

end Demitasse
