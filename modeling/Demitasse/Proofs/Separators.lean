import Demitasse.Proofs.Continuation
import Demitasse.Proofs.Partition

/-! Tokens and the text between them. Tokens that are written one after the other with a blank between any two are read
back. Blanks and block comments can be put behind any token of a text, and the tokens stay what they are: no token and
nothing that is skipped before it reaches over the place, and what follows is read from where it was read before. -/

namespace Demitasse

open Computability

/-- The usual way to write a token, with no zeros in front of a number. -/
def Token.canonical : Token → String
  | .integer n => toString n
  | .word text => text
  | t => t.spelling?.getD ""

/-- The numbers that tokens can hold, and words that are letters, digits and underscores behind a letter. -/
def Token.Writable : Token → Prop
  | .integer n => n ≤ maxInteger
  | .word text => IsWord text.toList
  | _ => True

/-- A token is read off its usual text. -/
theorem lexes_canonical {t : Token} {ts : List Token} {cs : List Char} (h : t.Writable) (hb : Boundary cs)
    (hcs : Lexes cs ts) : Lexes (t.canonical.toList ++ cs) (t :: ts) := by
  cases t with
  | integer n => exact lexes_integer h hb hcs
  | word text => exact lexes_word h hb hcs
  | println => exact lexes_println hcs
  | andAnd => exact lexes_andAnd hcs
  | _ => exact lexes_symbol rfl hcs

theorem lexes_spaced {ts : List Token} (h : ∀ t ∈ ts, t.Writable) :
    Lexes (" ".intercalate (ts.map Token.canonical)).toList ts := by
  induction ts with
  | nil => exact lexes_nil
  | cons t ts ih =>
      obtain ⟨ht, hts⟩ := List.forall_mem_cons.mp h
      cases ts with
      | nil =>
          have hone := lexes_canonical ht (fun _ hc => by cases hc) lexes_nil
          rw [List.append_nil] at hone
          exact hone
      | cons u us =>
          rw [List.map_cons, List.map_cons, String.intercalate_cons_cons, String.toList_append, String.toList_append,
            List.append_assoc]
          exact lexes_canonical ht (boundary_cons (by decide)) (lexes_blank (by decide) (ih hts))

/-- Blanks and block comments, in any number and order. -/
def separator : Language Char :=
  (Rule.blanks.pattern + Rule.closedComment.pattern)∗

section
variable {sep cs : List Char}

theorem scanFrom_comment {u : List Char} (hu : Unclosed u) (pos : Nat) (cs : List Char) :
    scanFrom pos (openMark ++ u ++ closeMark ++ cs) = scanFrom (pos + byteWidth (openMark ++ u ++ closeMark)) cs := by
  have hnext := Piece.next_of_comment hu cs
  have hinput : openMark ++ u ++ closeMark ++ cs = '/' :: '*' :: (u ++ closeMark ++ cs) := by
    simp [openMark]
  rw [hinput, scanFrom_of_skipped (congrArg Piece.reading hnext), hnext, List.append_assoc]
  rfl

/-- The scanner goes through a separator without a lexeme. -/
theorem scanFrom_separator (h : sep ∈ separator) (pos : Nat) (cs : List Char) :
    scanFrom pos (sep ++ cs) = scanFrom (pos + byteWidth sep) cs := by
  obtain ⟨parts, rfl, hparts⟩ := Language.mem_kstar.mp h
  clear h
  induction parts generalizing pos with
  | nil => rfl
  | cons part parts ih =>
      obtain ⟨hpart, hparts⟩ := List.forall_mem_cons.mp hparts
      have hskip : ∀ rest, scanFrom pos (part ++ rest) = scanFrom (pos + byteWidth part) rest := by
        intro rest
        rcases hpart with hblanks | hcomment
        · obtain ⟨c, bs, rfl, hc, hbs⟩ := mem_charIn_mul_kstar.mp hblanks
          exact scanFrom_blanks (List.forall_mem_cons.mpr ⟨hc, hbs⟩) pos rest
        · obtain ⟨u, rfl, hu⟩ := mem_blockComment.mp hcomment
          exact scanFrom_comment hu pos rest
      rw [List.flatten_cons, List.append_assoc, hskip, ih _ hparts, byteWidth_append, Nat.add_assoc]

theorem separates_of_isBlank {c : Char} (h : isBlank c = true) : Separates c := by
  simp only [isBlank, Bool.or_eq_true, decide_eq_true_eq] at h
  rcases h with (((rfl | rfl) | rfl) | rfl) | rfl <;> exact ⟨by decide, by decide⟩

/-- A separator is empty or starts with a character that occurs in no token behind the first one. -/
theorem separator_cases (h : sep ∈ separator) : sep = [] ∨ ∃ d rest, sep = d :: rest ∧ Separates d := by
  obtain ⟨parts, rfl, hparts⟩ := Language.mem_kstar.mp h
  cases parts with
  | nil => exact .inl rfl
  | cons part parts =>
      refine .inr ?_
      rcases hparts part List.mem_cons_self with hblanks | hcomment
      · obtain ⟨c, bs, rfl, hc, -⟩ := mem_charIn_mul_kstar.mp hblanks
        exact ⟨c, _, rfl, separates_of_isBlank hc⟩
      · obtain ⟨u, rfl, -⟩ := mem_blockComment.mp hcomment
        exact ⟨'/', _, rfl, by decide, by decide⟩

end

section
variable {rest front : List Char} {pos : Nat} {lexemes : List Lexeme} {l : Lexeme}

/-- A sequence of pieces can be divided behind each of its lexemes. -/
theorem Cut.split (h : Cut rest pos front lexemes) (hl : l ∈ lexemes) :
    ∃ before after lexemes₁ lexemes₂, front = before ++ after ∧ lexemes = lexemes₁ ++ [l] ++ lexemes₂ ∧
      l.span.stop = pos + byteWidth before ∧ Cut (after ++ rest) pos before (lexemes₁ ++ [l]) ∧
      Cut rest (pos + byteWidth before) after lexemes₂ := by
  induction h with
  | nil => cases hl
  | @skipped pos rule text front lexemes hlongest hreading _ ih =>
      obtain ⟨before, after, lexemes₁, lexemes₂, rfl, rfl, hstop, hbefore, hafter⟩ := ih hl
      rw [Nat.add_assoc, ← byteWidth_append] at hstop hafter
      rw [List.append_assoc] at hlongest
      refine ⟨text ++ before, after, lexemes₁, lexemes₂, (List.append_assoc _ _ _).symm, rfl, hstop, ?_, hafter⟩
      exact .skipped hlongest hreading hbefore
  | @token pos rule text front lexemes t hlongest hreading hfront ih =>
      rcases List.mem_cons.mp hl with rfl | hl
      · refine ⟨text, front, [], lexemes, rfl, rfl, rfl, ?_, hfront⟩
        have hone : Cut (front ++ rest) pos (text ++ []) _ := .token hlongest hreading (.nil _)
        rw [List.append_nil] at hone
        exact hone
      · obtain ⟨before, after, lexemes₁, lexemes₂, rfl, rfl, hstop, hbefore, hafter⟩ := ih hl
        rw [Nat.add_assoc, ← byteWidth_append] at hstop hafter
        rw [List.append_assoc] at hlongest
        refine ⟨text ++ before, after, _ :: lexemes₁, lexemes₂, (List.append_assoc _ _ _).symm, rfl, hstop, ?_, hafter⟩
        exact .token hlongest hreading hbefore

theorem eq_nil_of_byteWidth_eq_zero {text : List Char} (h : byteWidth text = 0) : text = [] := by
  by_contra hne
  exact absurd (byteWidth_pos hne) (by omega)

/-- A piece stays the longest one if a separating character follows what is behind it; if it is skipped, something has
to be behind it. -/
theorem Longest.before {d : Char} {rule : Rule} {text : List Char} (h : Longest rule text front)
    (hreading : rule.reading text ≠ .unreadable) (hskipped : rule.reading text = .skipped → front ≠ [])
    (hd : Separates d) (r : List Char) : Longest rule text (front ++ d :: r) := by
  obtain ⟨c, word, rfl⟩ := List.exists_cons_of_ne_nil (Rule.ne_nil h.matched)
  have hnext : Piece.next c (word ++ front) = ⟨rule.reading (c :: word), c :: word, front⟩ := Piece.next_of_longest h rfl
  have hbefore : Piece.next c (word ++ front ++ d :: r) = ⟨rule.reading (c :: word), c :: word, front ++ d :: r⟩ := by
    rw [Piece.next_before hd (by rw [hnext]; exact hreading), hnext]
    · rfl
    · rw [hnext]
      exact fun hreading hfront => absurd hfront (hskipped hreading)
  obtain ⟨_, hlongest, -⟩ := Piece.exists_longest (congrArg Piece.reading hbefore) hreading
  rw [hbefore] at hlongest
  exact ⟨h.matched, hlongest.length_le⟩

theorem Cut.lexemes_eq_nil (h : Cut rest pos [] lexemes) : lexemes = [] := by
  generalize hfront : [] = front at h
  cases h with
  | nil => rfl
  | skipped hlongest | token hlongest =>
      exact absurd (List.append_eq_nil_iff.mp hfront.symm).1 (Rule.ne_nil hlongest.matched)

/-- Pieces up to a token at the end stay what they are if a separating character follows. -/
theorem Cut.before {d : Char} (hd : Separates d) (r : List Char) (h : Cut [] pos front (lexemes ++ [l]))
    (hend : l.span.stop = pos + byteWidth front) : Cut (d :: r) pos front (lexemes ++ [l]) := by
  generalize hall : lexemes ++ [l] = all at h
  induction h generalizing lexemes with
  | nil => simp at hall
  | @skipped pos rule text front all hlongest hreading hfront ih =>
      rw [byteWidth_append, ← Nat.add_assoc] at hend
      rw [List.append_nil] at hlongest
      have hne : front ≠ [] := by
        rintro rfl
        rw [hfront.lexemes_eq_nil] at hall
        simp at hall
      have hreadable : rule.reading text ≠ .unreadable := by
        rw [hreading]
        exact Reading.noConfusion
      exact .skipped (hlongest.before hreadable (fun _ => hne) hd r) hreading (ih hend hall)
  | @token pos rule text front all t hlongest hreading hfront ih =>
      rw [byteWidth_append, ← Nat.add_assoc] at hend
      rw [List.append_nil] at hlongest
      have hbefore : Longest rule text (front ++ d :: r) := by
        refine hlongest.before ?_ ?_ hd r <;> rw [hreading] <;> exact Reading.noConfusion
      refine .token hbefore hreading ?_
      cases lexemes with
      | nil =>
          -- the token itself is the last piece
          cases hall
          have hempty : byteWidth front = 0 := by
            have hstop : pos + byteWidth text = pos + byteWidth text + byteWidth front := hend
            omega
          rw [eq_nil_of_byteWidth_eq_zero hempty]
          exact .nil _
      | cons m lexemes =>
          cases hall
          exact ih hend rfl

/-- Two ways to divide a text at one byte are the same. -/
theorem append_inj_of_byteWidth {before after before' after' : List Char} (h : before ++ after = before' ++ after')
    (hwidth : byteWidth before = byteWidth before') : before = before' ∧ after = after' := by
  rcases List.append_eq_append_iff.mp h with ⟨more, rfl, rfl⟩ | ⟨more, rfl, rfl⟩
  · rw [byteWidth_append] at hwidth
    have hmore : more = [] := eq_nil_of_byteWidth_eq_zero (by omega)
    rw [hmore, List.append_nil]
    exact ⟨rfl, rfl⟩
  · rw [byteWidth_append] at hwidth
    have hmore : more = [] := eq_nil_of_byteWidth_eq_zero (by omega)
    rw [hmore, List.append_nil]
    exact ⟨rfl, rfl⟩

/-- A separator behind a token of a text leaves all tokens as they are. -/
theorem exists_scan_separator {before sep after : String} (h : scan (before ++ after) = .ok lexemes) (hl : l ∈ lexemes)
    (hstop : l.span.stop = before.utf8ByteSize) (hsep : sep.toList ∈ separator) :
    ∃ lexemes', scan (before ++ sep ++ after) = .ok lexemes' ∧ lexemes'.map (·.token) = lexemes.map (·.token) := by
  rw [scan, String.toList_append] at h
  obtain ⟨front, behind, lexemes₁, lexemes₂, hsource, rfl, hstop', hfront, hbehind⟩ :=
    (scanFrom_eq_ok_iff.mp h).split hl
  have hwidth : byteWidth before.toList = byteWidth front := by
    rw [byteWidth_toList, ← hstop, hstop', Nat.zero_add]
  obtain ⟨rfl, rfl⟩ := append_inj_of_byteWidth hsource hwidth
  rcases separator_cases hsep with hempty | ⟨d, rest, hcons, hd⟩
  · rw [String.toList_eq_nil_iff] at hempty
    rw [hempty, String.append_empty, scan, String.toList_append, h]
    exact ⟨_, rfl, rfl⟩
  · have hcut : Cut (sep.toList ++ after.toList) 0 before.toList (lexemes₁ ++ [l]) := by
      have hfront' : Cut [] 0 before.toList (lexemes₁ ++ [l]) := Cut.of_append hfront
      rw [hcons]
      exact hfront'.before hd _ hstop'
    obtain ⟨lexemes', hscan, htokens⟩ := exists_scanFrom (scanFrom_eq_ok_iff.mpr hbehind)
      (0 + byteWidth before.toList + byteWidth sep.toList)
    refine ⟨lexemes₁ ++ [l] ++ lexemes', ?_, ?_⟩
    · rw [scan, String.toList_append, String.toList_append, List.append_assoc, scanFrom_of_cut hcut,
        scanFrom_separator hsep, hscan]
      rfl
    · rw [List.map_append, htokens, ← List.map_append]

end

/-- Tokens that are written in the usual way with a blank between any two are read back, and blanks and block comments
behind a token of a text that can be read do not change its tokens. -/
theorem token_texts_round_trip :
    (∀ ts : List Token, (∀ t ∈ ts, t.Writable) →
      ∃ lexemes, scan (" ".intercalate (ts.map Token.canonical)) = .ok lexemes ∧ lexemes.map (·.token) = ts) ∧
    ∀ (before sep after : String) (lexemes : List Lexeme) (l : Lexeme), scan (before ++ after) = .ok lexemes →
      l ∈ lexemes → l.span.stop = before.utf8ByteSize → sep.toList ∈ separator →
      ∃ lexemes', scan (before ++ sep ++ after) = .ok lexemes' ∧ lexemes'.map (·.token) = lexemes.map (·.token) :=
  ⟨fun _ h => lexes_spaced h, fun _ _ _ _ _ h hl hstop hsep => exists_scan_separator h hl hstop hsep⟩

/-- The first word of the print procedure's name, and the whole name. -/
def dottedTokens : List Token :=
  [.word "System", .dot, .println, .integer maxInteger, .word "x_1", .star]

/-- A blank and a comment between the words of a name that is cut short. -/
theorem token_texts_round_trip_dots : (∀ t ∈ dottedTokens, t.Writable) ∧
    (∃ lexemes, scan "System . System.out.println 9223372036854775807 x_1 *" = .ok lexemes ∧
      lexemes.map (·.token) = dottedTokens) ∧
    ∃ lexemes l lexemes', scan "System.out" = .ok lexemes ∧ l ∈ lexemes ∧ l.span.stop = "System".utf8ByteSize ∧
      " /*.*/".toList ∈ separator ∧ scan "System /*.*/.out" = .ok lexemes' ∧
      lexemes'.map (·.token) = [.word "System", .dot, .word "out"] := by
  have hwritable : ∀ t ∈ dottedTokens, t.Writable := by
    have hsystem : Token.Writable (.word "System") := ⟨'S', "ystem".toList, rfl, rfl, List.all_eq_true.mp rfl⟩
    have hname : Token.Writable (.word "x_1") := ⟨'x', "_1".toList, rfl, rfl, List.all_eq_true.mp rfl⟩
    simp only [dottedTokens, List.forall_mem_cons]
    exact ⟨hsystem, trivial, trivial, Nat.le_refl maxInteger, hname, trivial, List.forall_mem_nil _⟩
  have hscan : scan ("System" ++ ".out") = .ok [⟨.word "System", 0, 6⟩, ⟨.dot, 6, 7⟩, ⟨.word "out", 7, 10⟩] := by
    decide +kernel
  have hsep : " /*.*/".toList ∈ separator := by
    refine Language.mem_kstar.mpr ⟨[[' '], "/*.*/".toList], rfl, ?_⟩
    refine List.forall_mem_cons.mpr ⟨.inl ?_, List.forall_mem_singleton.mpr (.inr ?_)⟩
    · exact mem_charIn_mul_kstar.mpr ⟨' ', [], rfl, rfl, List.forall_mem_nil _⟩
    · exact mem_blockComment.mpr ⟨['.'], rfl, by decide⟩
  obtain ⟨hspaced, hbetween⟩ := token_texts_round_trip
  obtain ⟨lexemes, hlexemes, htokens⟩ := hspaced dottedTokens hwritable
  obtain ⟨lexemes', hlexemes', htokens'⟩ := hbetween "System" " /*.*/" ".out" _ _ hscan List.mem_cons_self rfl hsep
  have hjoined : " ".intercalate (dottedTokens.map Token.canonical) =
      "System . System.out.println 9223372036854775807 x_1 *" := by decide +kernel
  rw [hjoined] at hlexemes
  exact ⟨hwritable, ⟨lexemes, hlexemes, htokens⟩, _, _, lexemes', hscan, List.mem_cons_self, rfl, hsep, hlexemes',
    htokens'⟩

end Demitasse
