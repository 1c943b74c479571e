import Demitasse.Token.Scan

/-! What a text is read as, token by token. A token ends where the longest run of its characters ends, so
every step is stated with the text that follows. -/

namespace Demitasse

/-- The tokens that a text is read as. -/
def Lexes (cs : List Char) (ts : List Token) : Prop :=
  ∃ lexemes, scanFrom 0 cs = .ok lexemes ∧ lexemes.map (·.token) = ts

theorem byteWidth_append (cs ds : List Char) : byteWidth (cs ++ ds) = byteWidth cs + byteWidth ds := by
  have hfold : ∀ (ds : List Char) (n : Nat), ds.foldl (fun width c => width + c.utf8Size) n = n + byteWidth ds := by
    intro ds
    induction ds with
    | nil => exact fun n => rfl
    | cons d ds ih =>
        intro n
        have hhead : byteWidth (d :: ds) = 0 + d.utf8Size + byteWidth ds := ih (0 + d.utf8Size)
        rw [List.foldl_cons, ih, hhead]
        omega
  rw [byteWidth, List.foldl_append, hfold]
  rfl

theorem byteWidth_cons (c : Char) (cs : List Char) : byteWidth (c :: cs) = c.utf8Size + byteWidth cs := by
  rw [← List.singleton_append, byteWidth_append]
  exact congrArg (· + byteWidth cs) (Nat.zero_add _)

theorem byteWidth_toList (s : String) : byteWidth s.toList = s.utf8ByteSize := by
  have hlist : ∀ cs : List Char, byteWidth cs = (String.ofList cs).utf8ByteSize := by
    intro cs
    induction cs with
    | nil => rfl
    | cons c cs ih =>
        rw [byteWidth_cons, ih, String.ofList_cons, String.utf8ByteSize_append, String.utf8ByteSize_singleton]
  rw [hlist, String.ofList_toList]

section
variable {c : Char} {cs : List Char} {t : Token} {ts : List Token}

theorem scanFrom_of_skipped {pos : Nat} (h : (Piece.next c cs).reading = .skipped) :
    scanFrom pos (c :: cs) = scanFrom (pos + byteWidth (Piece.next c cs).text) (Piece.next c cs).rest := by
  rw [scanFrom]
  simp only [h]

theorem scanFrom_of_token {pos : Nat} (h : (Piece.next c cs).reading = .token t) :
    scanFrom pos (c :: cs) =
      (scanFrom (pos + byteWidth (Piece.next c cs).text) (Piece.next c cs).rest).map
        (⟨t, pos, pos + byteWidth (Piece.next c cs).text⟩ :: ·) := by
  rw [scanFrom]
  simp only [h]

theorem map_cons_eq_ok {lexeme : Lexeme} {lexemes : List Lexeme} {x : Except (Located LexicalFault) (List Lexeme)} :
    x.map (lexeme :: ·) = .ok lexemes ↔ ∃ rest, x = .ok rest ∧ lexemes = lexeme :: rest := by
  cases x with
  | ok rest => simp [Except.map, eq_comm]
  | error e => simp [Except.map]

/-- The place of a text in its source does not matter for its tokens. -/
theorem exists_scanFrom {pos : Nat} {lexemes : List Lexeme} (h : scanFrom pos cs = .ok lexemes) (pos' : Nat) :
    ∃ lexemes', scanFrom pos' cs = .ok lexemes' ∧ lexemes'.map (·.token) = lexemes.map (·.token) := by
  fun_induction scanFrom pos cs generalizing lexemes pos' with
  | case1 =>
      rw [scanFrom]
      exact ⟨lexemes, h, rfl⟩
  | case2 pos c cs piece span hreading =>
      rename_i ih
      rw [scanFrom_of_skipped hreading]
      exact ih h _
  | case3 pos c cs piece span t hreading =>
      rename_i ih
      obtain ⟨rest, hrest, rfl⟩ := map_cons_eq_ok.mp h
      obtain ⟨rest', hrest', htokens⟩ := ih hrest (pos' + byteWidth piece.text)
      rw [scanFrom_of_token hreading]
      exact ⟨_, map_cons_eq_ok.mpr ⟨rest', hrest', rfl⟩, congrArg (t :: ·) htokens⟩
  | case4 => cases h

theorem byteWidth_next (c : Char) (cs : List Char) :
    byteWidth (c :: cs) = byteWidth (Piece.next c cs).text + byteWidth (Piece.next c cs).rest := by
  rw [← byteWidth_append, Piece.next_append]

/-- Lexemes and errors are found from where scanning starts on. -/
theorem scanFrom_ahead (pos : Nat) (cs : List Char) :
    match scanFrom pos cs with
    | .ok lexemes => ∀ l ∈ lexemes, pos ≤ l.span.start ∧ pos ≤ l.span.stop
    | .error e => pos ≤ e.span.start := by
  fun_induction scanFrom pos cs with
  | case1 => exact List.forall_mem_nil _
  | case2 pos c cs piece span hreading ih =>
      have hle : pos ≤ span.stop := Nat.le_add_right _ _
      cases hscan : scanFrom span.stop piece.rest with
      | ok lexemes =>
          rw [hscan] at ih
          exact fun l hl => ⟨Nat.le_trans hle (ih l hl).1, Nat.le_trans hle (ih l hl).2⟩
      | error e =>
          rw [hscan] at ih
          exact Nat.le_trans hle ih
  | case3 pos c cs piece span t hreading ih =>
      have hle : pos ≤ span.stop := Nat.le_add_right _ _
      cases hscan : scanFrom span.stop piece.rest with
      | ok lexemes =>
          rw [hscan] at ih
          refine List.forall_mem_cons.mpr ⟨⟨Nat.le_refl _, hle⟩, fun l hl => ?_⟩
          exact ⟨Nat.le_trans hle (ih l hl).1, Nat.le_trans hle (ih l hl).2⟩
      | error e =>
          rw [hscan] at ih
          exact Nat.le_trans hle ih
  | case4 => exact Nat.le_refl _

theorem lexes_nil : Lexes [] [] :=
  ⟨[], by rw [scanFrom], rfl⟩

theorem lexes_of_skipped (h : (Piece.next c cs).reading = .skipped) :
    Lexes (c :: cs) ts ↔ Lexes (Piece.next c cs).rest ts := by
  rw [Lexes, scanFrom_of_skipped h]
  constructor
  · rintro ⟨lexemes, hscan, rfl⟩
    exact exists_scanFrom hscan 0
  · rintro ⟨lexemes, hscan, rfl⟩
    exact exists_scanFrom hscan _

theorem lexes_of_token (h : (Piece.next c cs).reading = .token t) (hrest : Lexes (Piece.next c cs).rest ts) :
    Lexes (c :: cs) (t :: ts) := by
  obtain ⟨lexemes, hscan, rfl⟩ := hrest
  obtain ⟨lexemes', hscan', htokens⟩ := exists_scanFrom hscan (0 + byteWidth (Piece.next c cs).text)
  rw [Lexes, scanFrom_of_token h]
  exact ⟨_, map_cons_eq_ok.mpr ⟨lexemes', hscan', rfl⟩, congrArg (t :: ·) htokens⟩

theorem isBlank_eq_false_of_isAlpha (h : c.isAlpha = true) : isBlank c = false := by
  rw [← Bool.not_eq_true]
  intro hblank
  simp only [isBlank, Bool.or_eq_true, decide_eq_true_eq] at hblank
  rcases hblank with (((rfl | rfl) | rfl) | rfl) | rfl <;> cases h

theorem isBlank_eq_false_of_isDigit (h : c.isDigit = true) : isBlank c = false := by
  rw [← Bool.not_eq_true]
  intro hblank
  simp only [isBlank, Bool.or_eq_true, decide_eq_true_eq] at hblank
  rcases hblank with (((rfl | rfl) | rfl) | rfl) | rfl <;> cases h

theorem isDigit_eq_false_of_isAlpha (h : c.isAlpha = true) : c.isDigit = false := by
  rw [← Bool.not_eq_true, Char.isDigit_iff_toNat]
  rintro ⟨-, hnine⟩
  have hletter : 'A'.toNat ≤ c.toNat := by
    rcases Bool.or_eq_true_iff.mp h with hupper | hlower
    · exact (of_decide_eq_true hupper).1
    · have ha : 'a'.toNat ≤ c.toNat := of_decide_eq_true (Bool.and_eq_true_iff.mp hlower).1
      exact Nat.le_trans (by decide) ha
  exact absurd (Nat.le_trans hletter hnine) (by decide)

theorem isWordChar_of_isDigit (h : c.isDigit = true) : isWordChar c = true := by
  simp [isWordChar, Char.isAlphanum, h]

theorem Piece.next_of_isBlank (h : isBlank c = true) :
    Piece.next c cs = Piece.run (fun _ => .skipped) isBlank c cs :=
  if_pos h

theorem Piece.next_of_isDigit (h : c.isDigit = true) :
    Piece.next c cs = Piece.run Piece.readDigits Char.isDigit c cs := by
  have hblank : ¬ isBlank c = true := by simp [isBlank_eq_false_of_isDigit h]
  exact (if_neg hblank).trans (if_pos h)

theorem Piece.next_of_isAlpha (h : c.isAlpha = true) :
    Piece.next c cs = if printlnText.isPrefixOf (c :: cs) then
        ⟨.token .println, printlnText, (c :: cs).drop printlnText.length⟩
      else Piece.run (fun text => .token (.word (String.ofList text))) isWordChar c cs := by
  have hblank : ¬ isBlank c = true := by simp [isBlank_eq_false_of_isAlpha h]
  have hdigit : ¬ c.isDigit = true := by simp [isDigit_eq_false_of_isAlpha h]
  exact (if_neg hblank).trans ((if_neg hdigit).trans (if_pos h))

/-- What follows a word or a number: not a character of either, and no dot, behind which a word may be part of
a longer name. -/
def Boundary (cs : List Char) : Prop :=
  ∀ c, cs.head? = some c → isWordChar c = false ∧ c ≠ '.'

theorem boundary_cons (h : isWordChar c = false ∧ c ≠ '.') : Boundary (c :: cs) := by
  rintro c' ⟨⟩
  exact h

theorem lexes_blank (h : isBlank c = true) (hcs : Lexes cs ts) : Lexes (c :: cs) ts := by
  rw [lexes_of_skipped (by rw [Piece.next_of_isBlank h]; rfl), Piece.next_of_isBlank h]
  cases cs with
  | nil => exact hcs
  | cons b cs =>
      rw [Piece.run, List.dropWhile_cons]
      split
      · rename_i hb
        rw [lexes_of_skipped (by rw [Piece.next_of_isBlank hb]; rfl), Piece.next_of_isBlank hb] at hcs
        exact hcs
      · exact hcs

theorem Piece.next_of_ofChar? (h : Token.ofChar? c = some t) (cs : List Char) : next c cs = ⟨.token t, [c], cs⟩ := by
  rw [Token.ofChar?.eq_def] at h
  split at h
  all_goals cases h
  all_goals rfl

theorem lexes_symbol (h : Token.ofChar? c = some t) (hcs : Lexes cs ts) : Lexes (c :: cs) (t :: ts) := by
  refine lexes_of_token (by rw [Piece.next_of_ofChar? h]) ?_
  rw [Piece.next_of_ofChar? h]
  exact hcs

theorem lexes_andAnd (hcs : Lexes cs ts) : Lexes ('&' :: '&' :: cs) (.andAnd :: ts) :=
  lexes_of_token rfl hcs

theorem lexes_println (hcs : Lexes cs ts) : Lexes (printlnText ++ cs) (.println :: ts) := by
  have hsplit : printlnText ++ cs = 'S' :: (printlnText.tail ++ cs) := rfl
  have hprefix : printlnText.isPrefixOf ('S' :: (printlnText.tail ++ cs)) = true := by
    rw [← hsplit, List.isPrefixOf_iff_prefix]
    exact List.prefix_append _ _
  have hnext : Piece.next 'S' (printlnText.tail ++ cs) = ⟨.token .println, printlnText, cs⟩ := by
    rw [Piece.next_of_isAlpha (by decide), if_pos hprefix, ← hsplit, List.drop_left]
  rw [hsplit]
  refine lexes_of_token (by rw [hnext]) ?_
  rw [hnext]
  exact hcs

theorem takeWhile_append_of_boundary {p : Char → Bool} (hp : ∀ c, p c = true → isWordChar c = true)
    {run : List Char} (hrun : ∀ c ∈ run, p c = true) (hcs : Boundary cs) :
    (run ++ cs).takeWhile p = run ∧ (run ++ cs).dropWhile p = cs := by
  rw [List.takeWhile_append_of_pos hrun, List.dropWhile_append_of_pos hrun]
  cases cs with
  | nil => exact ⟨List.append_nil run, rfl⟩
  | cons c cs =>
      have hc : ¬ p c = true := by
        intro h
        have hword := hp c h
        rw [(hcs c rfl).1] at hword
        cases hword
      rw [List.takeWhile_cons_of_neg hc, List.dropWhile_cons_of_neg hc]
      exact ⟨List.append_nil run, rfl⟩

/-- Letters, digits and underscores behind a letter. -/
def IsWord (text : List Char) : Prop :=
  ∃ c cs, text = c :: cs ∧ c.isAlpha = true ∧ ∀ d ∈ cs, isWordChar d = true

/-- The print procedure's name does not start with a whole word. -/
theorem not_println_of_boundary {text : List Char} (htext : ∀ d ∈ text, isWordChar d = true)
    (hcs : Boundary cs) : ¬ printlnText.isPrefixOf (text ++ cs) = true := by
  rw [List.isPrefixOf_iff_prefix]
  rintro ⟨after, hafter⟩
  have hrest := congrArg (List.dropWhile isWordChar) hafter
  rw [(takeWhile_append_of_boundary (fun _ => id) htext hcs).2] at hrest
  have hdot : cs.head? = some '.' := by
    rw [← hrest]
    rfl
  exact (hcs _ hdot).2 rfl

theorem lexes_word {text : String} (h : IsWord text.toList) (hb : Boundary cs) (hcs : Lexes cs ts) :
    Lexes (text.toList ++ cs) (.word text :: ts) := by
  obtain ⟨c, word, htext, hc, hword⟩ := h
  have hall : ∀ d ∈ c :: word, isWordChar d = true := by
    intro d hd
    rcases List.mem_cons.mp hd with rfl | hd
    · simp [isWordChar, Char.isAlphanum, hc]
    · exact hword d hd
  obtain ⟨htake, hdrop⟩ := takeWhile_append_of_boundary (fun _ => id) hword hb
  have hnext : Piece.next c (word ++ cs) = ⟨.token (.word text), c :: word, cs⟩ := by
    rw [Piece.next_of_isAlpha hc, ← List.cons_append, if_neg (not_println_of_boundary hall hb), Piece.run,
      htake, hdrop, ← htext, String.ofList_toList]
  rw [htext, List.cons_append]
  refine lexes_of_token (by rw [hnext]) ?_
  rw [hnext]
  exact hcs

theorem decimalValue_toDigits (n : Nat) : decimalValue (Nat.toDigits 10 n) = n := by
  rw [decimalValue, ← Nat.ofDigitChars_eq_foldl]
  exact Nat.ofDigitChars_toDigits (by decide) (by decide)

theorem lexes_integer {n : Nat} (h : n ≤ maxInteger) (hb : Boundary cs) (hcs : Lexes cs ts) :
    Lexes ((toString n).toList ++ cs) (.integer n :: ts) := by
  rw [Nat.toString_eq_ofList_toDigits, String.toList_ofList]
  obtain ⟨c, digits, hdigits⟩ := List.exists_cons_of_ne_nil (Nat.toDigits_ne_nil (n := n) (b := 10))
  have hall : ∀ d ∈ c :: digits, d.isDigit = true := by
    intro d hd
    rw [← hdigits] at hd
    exact Nat.isDigit_of_mem_toDigits (by decide) (by decide) hd
  obtain ⟨htake, hdrop⟩ := takeWhile_append_of_boundary (fun _ => isWordChar_of_isDigit)
    (fun d hd => hall d (List.mem_cons_of_mem c hd)) hb
  have hnext : Piece.next c (digits ++ cs) = ⟨.token (.integer n), c :: digits, cs⟩ := by
    rw [Piece.next_of_isDigit (hall c List.mem_cons_self), Piece.run, htake, hdrop, ← hdigits,
      Piece.readDigits, decimalValue_toDigits, if_pos h]
  rw [hdigits, List.cons_append]
  refine lexes_of_token (by rw [hnext]) ?_
  rw [hnext]
  exact hcs

/-- A word token holds a word. -/
def Token.Spelled : Token → Prop
  | .word text => IsWord text.toList
  | _ => True

theorem Token.spelled_of_ofChar? (h : Token.ofChar? c = some t) : t.Spelled := by
  rw [Token.ofChar?.eq_def] at h
  split at h
  all_goals cases h
  all_goals trivial

theorem Piece.spelled_of_next (h : (Piece.next c cs).reading = .token t) : t.Spelled := by
  unfold next at h
  split at h
  · cases h
  split at h
  · simp only [run, readDigits] at h
    split at h
    · cases h
      trivial
    · cases h
  split at h
  · rename_i hc
    split at h
    · cases h
      trivial
    · cases h
      refine ⟨c, cs.takeWhile isWordChar, String.toList_ofList, hc, fun d hd => ?_⟩
      exact List.all_eq_true.mp List.all_takeWhile d hd
  split at h
  · cases h
  · split at h <;> cases h
  · cases h
    trivial
  · split at h
    · cases h
      exact Token.spelled_of_ofChar? ‹_›
    · cases h

theorem spelled_of_scanFrom {pos : Nat} {lexemes : List Lexeme} (h : scanFrom pos cs = .ok lexemes) :
    ∀ lexeme ∈ lexemes, lexeme.token.Spelled := by
  fun_induction scanFrom pos cs generalizing lexemes with
  | case1 =>
      cases h
      exact fun lexeme hmem => nomatch hmem
  | case2 pos c cs piece span hreading =>
      rename_i ih
      exact ih h
  | case3 pos c cs piece span t hreading =>
      rename_i ih
      obtain ⟨rest, hrest, rfl⟩ := map_cons_eq_ok.mp h
      intro lexeme hmem
      rcases List.mem_cons.mp hmem with rfl | hmem
      · exact Piece.spelled_of_next hreading
      · exact ih hrest lexeme hmem
  | case4 => cases h

end

end Demitasse
