import Demitasse.Proofs.Language
import Demitasse.Proofs.Lexing
import Demitasse.Proofs.Positions

/-! A text that goes on in a new line. The lexemes of the first text stay what they are, as no piece reaches over the
end of its line into what follows but a run of blanks. So its classes are read as before, up to their spans, and
the rest is read from the first lexeme of the continuation on. -/

namespace Demitasse

section
variable {c d : Char} {cs r : List Char}

/-- The same piece, with more text behind it. -/
def Piece.followedBy (piece : Piece) (more : List Char) : Piece :=
  { piece with rest := piece.rest ++ more }

/-- A run of a class that has ended, or that does not go on with `d`. -/
theorem span_before {inClass : Char → Bool} (h : cs.dropWhile inClass = [] → inClass d = false) (r : List Char) :
    (cs ++ d :: r).takeWhile inClass = cs.takeWhile inClass ∧
    (cs ++ d :: r).dropWhile inClass = cs.dropWhile inClass ++ d :: r := by
  induction cs with
  | nil =>
      have hd : ¬ inClass d = true := by rw [h rfl]; exact Bool.false_ne_true
      rw [List.nil_append, List.takeWhile_cons_of_neg hd, List.dropWhile_cons_of_neg hd]
      exact ⟨rfl, rfl⟩
  | cons c cs ih =>
      rw [List.cons_append, List.takeWhile_cons, List.takeWhile_cons, List.dropWhile_cons, List.dropWhile_cons]
      by_cases hc : inClass c = true
      · rw [List.dropWhile_cons_of_pos hc] at h
        rw [if_pos hc, if_pos hc, if_pos hc, if_pos hc, (ih h).1, (ih h).2]
        exact ⟨rfl, rfl⟩
      · rw [if_neg hc, if_neg hc, if_neg hc, if_neg hc]
        exact ⟨rfl, rfl⟩

theorem Piece.run_before (reading : List Char → Reading) {inClass : Char → Bool}
    (h : cs.dropWhile inClass = [] → inClass d = false) (c : Char) (r : List Char) :
    run reading inClass c (cs ++ d :: r) = (run reading inClass c cs).followedBy (d :: r) := by
  rw [run, (span_before h r).1, (span_before h r).2]
  rfl

theorem commentBody_before {body after : List Char} (h : commentBody cs = some (body, after)) (more : List Char) :
    commentBody (cs ++ more) = some (body, after ++ more) := by
  fun_induction commentBody cs generalizing body after with
  | case1 => cases h
  | case2 rest =>
      cases h
      rfl
  | case3 c rest hne ih =>
      obtain ⟨⟨b, a⟩, hb, heq⟩ := Option.map_eq_some_iff.mp h
      cases heq
      rw [List.cons_append, commentBody, ih hb]
      · rfl
      · intro rest' hc hrest
        cases rest with
        | nil => cases hb
        | cons d rest =>
            cases hrest
            exact hne rest hc rfl

/-- A text in which a character does not occur stands in front of it or not at all. -/
theorem isPrefixOf_before {text : List Char} (h : d ∉ text) (cs r : List Char) :
    text.isPrefixOf (cs ++ d :: r) = text.isPrefixOf cs := by
  induction text generalizing cs with
  | nil => rfl
  | cons e text ih =>
      obtain ⟨he, htext⟩ := List.ne_and_not_mem_of_not_mem_cons h
      cases cs with
      | nil =>
          have hne : (e == d) = false := beq_eq_false_iff_ne.mpr (Ne.symm he)
          rw [List.nil_append, List.isPrefixOf_cons_cons, hne]
          rfl
      | cons c cs => rw [List.cons_append, List.isPrefixOf_cons_cons, List.isPrefixOf_cons_cons, ih htext]

/-- A character that occurs in no token behind the first one. -/
def Separates (d : Char) : Prop :=
  isWordChar d = false ∧ d ≠ '.'

theorem Separates.not_mem_println (h : Separates d) : d ∉ printlnText := by
  intro hmem
  have hword : isWordChar d = true ∨ d = '.' := by
    have hall : ∀ e ∈ printlnText, (isWordChar e || e = '.') = true := List.all_eq_true.mp rfl
    simpa using hall d hmem
  rcases hword with hword | hdot
  · exact absurd hword (by rw [h.1]; exact Bool.false_ne_true)
  · exact h.2 hdot

/-- A piece ends before a separating character. If it is skipped and nothing follows it, it may be a run that the
character belongs to: blanks go on with a blank, and a comment to the end of the line with anything but a new line. -/
theorem Piece.next_before (hd : Separates d) (hreading : (next c cs).reading ≠ .unreadable)
    (hskipped : (next c cs).reading = .skipped → (next c cs).rest = [] → isBlank c = false ∧ d = '\n')
    (r : List Char) : next c (cs ++ d :: r) = (next c cs).followedBy (d :: r) := by
  by_cases hblank : isBlank c = true
  · rw [next_of_isBlank hblank] at hskipped
    rw [next_of_isBlank hblank, next_of_isBlank hblank]
    refine run_before _ (fun hrest => ?_) c r
    exact absurd hblank (by rw [(hskipped rfl hrest).1]; exact Bool.false_ne_true)
  by_cases hdigit : c.isDigit = true
  · rw [next_of_isDigit hdigit, next_of_isDigit hdigit]
    refine run_before _ (fun _ => Bool.eq_false_iff.mpr fun h => ?_) c r
    exact absurd (isWordChar_of_isDigit h) (by rw [hd.1]; exact Bool.false_ne_true)
  by_cases halpha : c.isAlpha = true
  · have hprefix : printlnText.isPrefixOf (c :: (cs ++ d :: r)) = printlnText.isPrefixOf (c :: cs) :=
      isPrefixOf_before hd.not_mem_println (c :: cs) r
    rw [next_of_isAlpha halpha, next_of_isAlpha halpha, hprefix]
    by_cases hprintln : printlnText.isPrefixOf (c :: cs) = true
    · obtain ⟨rest, hrest⟩ := List.isPrefixOf_iff_prefix.mp hprintln
      rw [if_pos hprintln, if_pos hprintln, ← List.cons_append, ← hrest, List.append_assoc, List.drop_left,
        List.drop_left]
      rfl
    · rw [if_neg hprintln, if_neg hprintln]
      exact run_before _ (fun _ => hd.1) c r
  cases hchar : Token.ofChar? c with
  | some t =>
      rw [next_of_ofChar? hchar, next_of_ofChar? hchar]
      rfl
  | none =>
      unfold next at hreading hskipped ⊢
      rw [if_neg hblank, if_neg hdigit, if_neg halpha] at hreading hskipped
      rw [if_neg hblank, if_neg hblank, if_neg hdigit, if_neg hdigit, if_neg halpha, if_neg halpha]
      split at hreading
      · rename_i rest
        refine @run_before d ('/' :: rest) (fun _ => .skipped) (· ≠ '\n') (fun hrest => ?_) '/' r
        rw [(hskipped rfl hrest).2]
        rfl
      · rename_i rest
        cases hbody : commentBody rest with
        | none =>
            rw [hbody] at hreading
            exact absurd rfl hreading
        | some found =>
            obtain ⟨body, after⟩ := found
            simp only [List.cons_append, commentBody_before hbody]
            rfl
      · rfl
      · rw [hchar] at hreading
        exact absurd rfl hreading

/-- A piece that is not blank ends before a new line. -/
theorem Piece.next_newline (hblank : isBlank c = false) (hreading : (next c cs).reading ≠ .unreadable) (r : List Char) :
    next c (cs ++ '\n' :: r) = (next c cs).followedBy ('\n' :: r) :=
  next_before ⟨by decide, by decide⟩ hreading (fun _ _ => ⟨hblank, rfl⟩) r

theorem scanFrom_blank (h : isBlank c = true) (pos : Nat) (cs : List Char) :
    scanFrom pos (c :: cs) = scanFrom (pos + c.utf8Size) cs := by
  have hskip : ∀ {d ds} (pos : Nat), isBlank d = true → scanFrom pos (d :: ds) =
      scanFrom (pos + byteWidth (d :: ds.takeWhile isBlank)) (ds.dropWhile isBlank) := by
    intro d ds pos hd
    rw [scanFrom_of_skipped (by rw [Piece.next_of_isBlank hd]; rfl), Piece.next_of_isBlank hd]
    rfl
  rw [hskip pos h, byteWidth_cons, ← Nat.add_assoc]
  cases cs with
  | nil => rfl
  | cons d ds =>
      by_cases hd : isBlank d = true
      · rw [hskip _ hd, List.takeWhile_cons, if_pos hd, List.dropWhile_cons, if_pos hd]
      · rw [List.takeWhile_cons, if_neg hd, List.dropWhile_cons, if_neg hd]
        rfl

theorem scanFrom_blanks {bs : List Char} (h : ∀ b ∈ bs, isBlank b = true) (pos : Nat) (cs : List Char) :
    scanFrom pos (bs ++ cs) = scanFrom (pos + byteWidth bs) cs := by
  induction bs generalizing pos with
  | nil => rfl
  | cons b bs ih =>
      obtain ⟨hb, hbs⟩ := List.forall_mem_cons.mp h
      rw [List.cons_append, scanFrom_blank hb, ih hbs, byteWidth_cons, Nat.add_assoc]

/-- The lexemes of a text in front of a new line are those of the text alone, and then come those of what follows. -/
theorem scanFrom_newline {pos : Nat} {lexemes : List Lexeme} (h : scanFrom pos cs = .ok lexemes) (r : List Char) :
    scanFrom pos (cs ++ '\n' :: r) = (scanFrom (pos + byteWidth cs + 1) r).map (lexemes ++ ·) := by
  fun_induction scanFrom pos cs generalizing lexemes with
  | case1 pos =>
      cases h
      rw [List.nil_append, scanFrom_blank (by decide)]
      change scanFrom (pos + 1) r = (scanFrom (pos + 1) r).map ([] ++ ·)
      cases scanFrom (pos + 1) r <;> rfl
  | case2 pos c cs piece span hreading =>
      rename_i ih
      rw [byteWidth_next, ← Nat.add_assoc, ← ih h]
      by_cases hblank : isBlank c = true
      · have htext : ∀ b ∈ piece.text, isBlank b = true := by
          intro b hb
          change b ∈ (Piece.next c cs).text at hb
          rw [Piece.next_of_isBlank hblank] at hb
          rcases List.mem_cons.mp hb with rfl | hb
          · exact hblank
          · exact (List.all_eq_true.mp List.all_takeWhile) b hb
        rw [← Piece.next_append c cs, List.append_assoc]
        exact scanFrom_blanks htext pos _
      · have hreadable : (Piece.next c cs).reading ≠ .unreadable := by
          rw [hreading]
          intro h
          cases h
        have hnext := Piece.next_newline (Bool.eq_false_iff.mpr hblank) hreadable r
        rw [List.cons_append, scanFrom_of_skipped (by rw [hnext]; exact hreading), hnext]
        rfl
  | case3 pos c cs piece span t hreading =>
      rename_i ih
      obtain ⟨rest, hrest, rfl⟩ := map_cons_eq_ok.mp h
      have hblank : isBlank c = false := by
        rw [Bool.eq_false_iff]
        intro hblank
        change (Piece.next c cs).reading = _ at hreading
        rw [Piece.next_of_isBlank hblank] at hreading
        cases hreading
      have hreadable : (Piece.next c cs).reading ≠ .unreadable := by
        rw [hreading]
        intro h
        cases h
      have hnext := Piece.next_newline hblank hreadable r
      rw [List.cons_append, scanFrom_of_token (by rw [hnext]; exact hreading), hnext, byteWidth_next, ← Nat.add_assoc]
      change (scanFrom span.stop (piece.rest ++ '\n' :: r)).map _ = _
      rw [ih hrest]
      cases scanFrom (span.stop + byteWidth piece.rest + 1) r <;> rfl
  | case4 => cases h

end

namespace Parser

section
variable {α β : Type} {item : Parser α} {shape : α → β} {ts tl : List Token} {as : List α}

/-- Items that are known to come first are read, and then the sequence goes on. -/
theorem many_prefix {more : Cursor → Bool} {D : List Token → α → Prop} {ids : α → List NodeId}
    (hsound : item.Sound D ids)
    (h : Many (fun ts a => item.Reads shape ts a ∧ ∀ c tl, c.tokens = ts ++ tl → more c = true) ts as) :
    ∀ {bound : Nat} {c : Cursor}, as.length ≤ bound → c.tokens = ts ++ tl →
      ∃ as' c', as'.map shape = as.map shape ∧ c'.tokens = tl ∧ c'.rest <:+ c.rest ∧
        (many more item bound).run c =
          (many more item (bound - as.length) >>= fun rest => pure (as' ++ rest)).run c' := by
  induction h with
  | nil =>
      intro bound c _ hc
      refine ⟨[], c, rfl, hc, List.suffix_refl _, ?_⟩
      simp only [List.nil_append, bind_pure]
      rfl
  | @cons _ _ a as ha _ ih =>
      intro bound c hbound hc
      obtain ⟨bound, rfl⟩ : ∃ b, bound = b + 1 := Nat.exists_eq_add_one.mpr (by simp at hbound; omega)
      rw [List.append_assoc] at hc
      obtain ⟨a', c₁, hrun, ha', hc₁⟩ := ha.1 hc
      obtain ⟨_, _, hreads⟩ := hsound hrun
      obtain ⟨as', c₂, has', hc₂, hsuffix, hmany⟩ := ih (Nat.le_of_succ_le_succ hbound) hc₁
      refine ⟨a' :: as', c₂, congrArg₂ List.cons ha' has', hc₂, hsuffix.trans hreads.suffix, ?_⟩
      rw [many, run_get_bind, if_pos (ha.2 c _ hc), run_bind_of_ok hrun, EStateM.run_bind, hmany, ← EStateM.run_bind]
      simp only [bind_assoc, pure_bind, List.cons_append, List.length_cons, Nat.add_sub_add_right]

end

/-- Reading a program with more lexemes behind it. -/
theorem program_prefix {lexemes : List Lexeme} {p : Program} {c : Cursor} (h : program.run (.start lexemes) = .ok p c)
    (more : List Lexeme) :
    ∃ (q : Program) (c' : Cursor) (count bound : Nat), q.mapNodes Node.blank = p.mapNodes Node.blank ∧ c'.rest = more ∧
      program.run (.start (lexemes ++ more)) =
        (many (fun c => !c.atEnd) (classDecl bound) count >>= fun new =>
          pure ⟨q.main, q.classes ++ new, programSpan q.main (q.classes ++ new)⟩).run c' := by
  obtain ⟨hprogram, _⟩ := program_reads_all h
  have htokens : (Cursor.start (lexemes ++ more)).tokens = (Cursor.start lexemes).tokens ++ more.map (·.token) :=
    List.map_append
  have hlength : (Cursor.start lexemes).tokens.length ≤ (lexemes ++ more).length := by
    rw [List.length_append, Cursor.tokens, List.length_map]
    exact Nat.le_add_right _ _
  generalize (Cursor.start lexemes).tokens = ts at hprogram htokens hlength
  obtain ⟨hmain, hclasses⟩ := hprogram
  rename_i ts us
  rw [List.append_assoc] at htokens
  rw [List.length_append] at hlength
  generalize hbound : (lexemes ++ more).length = bound at hlength
  have hlist : Many (fun us d => (classDecl bound).Reads (ClassDecl.mapNodes Node.blank) us d ∧
      ∀ (c : Cursor) tl, c.tokens = us ++ tl → (!c.atEnd) = true) us p.classes := by
    refine hclasses.imp_of_length fun us d hle h => ⟨classDecl_reads h (by omega), fun c tl hc => ?_⟩
    rw [Bool.not_eq_true', ← Bool.not_eq_true, Cursor.atEnd_iff, hc]
    exact (h.headNe.append tl).ne_nil
  have hcount := hclasses.length_le fun us d h => h.headNe.ne_nil
  obtain ⟨main, c₁, hrun₁, hmain', hc₁⟩ := mainClass_reads hmain (Nat.le_trans (Nat.le_add_right _ _) hlength) htokens
  obtain ⟨_, _, hreads⟩ := mainClass_sound _ hrun₁
  obtain ⟨classes, c₂, hclasses', hc₂, hsuffix, hrun₂⟩ :=
    many_prefix (classDecl_sound bound) hlist (by omega : p.classes.length ≤ bound) hc₁
  refine ⟨⟨main, classes, .origin⟩, c₂, bound - p.classes.length, bound, ?_, ?_, ?_⟩
  · simp only [Program.mapNodes, hmain', hclasses']
  · have hsuffix' : c₂.rest <:+ lexemes ++ more := hsuffix.trans hreads.suffix
    have hsame : c₂.rest.length = more.length := by
      have hmap := congrArg List.length hc₂
      rwa [Cursor.tokens, List.length_map, List.length_map] at hmap
    exact (List.suffix_of_suffix_length_le hsuffix' (List.suffix_append _ _) (Nat.le_of_eq hsame)).eq_of_length hsame
  · rw [program, run_get_bind]
    change (programWithin (lexemes ++ more).length).run _ = _
    rw [hbound, programWithin, run_bind_of_ok hrun₁, EStateM.run_bind, hrun₂, ← EStateM.run_bind]
    simp only [bind_assoc, pure_bind]

end Parser

/-- An error is about the source text from byte `k` on. -/
def CompileError.BlamesFrom (k : Nat) (e : CompileError) : Prop :=
  ∃ stage span message, e.diagnostic = .source stage span message ∧ k ≤ span.start

/-- A program of one shape with a parsed one, at the head of another parsed program, differs from it in spans
only: both got the first identities. -/
theorem withoutSpans_of_parse {source source' : String} {p p' q : Program} (h : parse source = .ok p)
    (h' : parse source' = .ok p') (hshape : q.mapNodes Node.blank = p.mapNodes Node.blank)
    {more : List NodeId} (hids : p'.ids = q.ids ++ more) : q.withoutSpans = p.withoutSpans := by
  obtain ⟨hlength, hsettled⟩ := q.settled p hshape
  apply hsettled
  have hrange := ids_of_parse h'
  rw [hids, List.length_append, List.range_eq_range', List.range'_append_1.symm] at hrange
  rw [ids_of_parse h, (List.append_inj hrange List.length_range'.symm).1, hlength, List.range_eq_range']

/-- A text of which the tokens are known is read off them. -/
theorem parse_of_scan {source : String} {lexemes : List Lexeme} (h : scan source = .ok lexemes) :
    parse source = match Parser.program.run (.start lexemes) with
      | .ok p _ => .ok p
      | .error e _ => .error (.syntactic e) := by
  rw [parse, h]
  rfl

/-- A text that holds a program goes on in a new line. What is wrong with the whole text is wrong with the
continuation; otherwise it is read as the same program, up to spans, with more classes. -/
theorem parse_newline {source : String} {p : Program} (h : parse source = .ok p) (more : String) :
    match parse (source ++ "\n" ++ more) with
    | .error e => e.BlamesFrom (source.utf8ByteSize + 1)
    | .ok p' => ∃ q : Program, q.withoutSpans = p.withoutSpans ∧ p'.main = q.main ∧
        ∃ new, p'.classes = q.classes ++ new ∧ Later (source.utf8ByteSize + 1) (new.flatMap ClassDecl.visits) := by
  obtain ⟨lexemes, c, hscan, hrun⟩ := parse_eq_ok.mp h
  have htext : (source ++ "\n" ++ more).toList = source.toList ++ '\n' :: more.toList := by
    rw [String.toList_append, String.toList_append, List.append_assoc]
    rfl
  have hscan' : scan (source ++ "\n" ++ more) =
      (scanFrom (source.utf8ByteSize + 1) more.toList).map (lexemes ++ ·) := by
    rw [scan, htext, scanFrom_newline hscan, Nat.zero_add, byteWidth_toList]
  have hahead := scanFrom_ahead (source.utf8ByteSize + 1) more.toList
  cases hmore : scanFrom (source.utf8ByteSize + 1) more.toList with
  | error e =>
      rw [hmore] at hahead hscan'
      have hparse : parse (source ++ "\n" ++ more) = .error (.lexical e) := by
        rw [parse, hscan']
        rfl
      rw [hparse]
      exact ⟨.lexer, e.span, _, rfl, hahead⟩
  | ok lexemes' =>
      rw [hmore] at hahead hscan'
      obtain ⟨q, c', count, bound, hshape, hc', hprogram⟩ := Parser.program_prefix hrun lexemes'
      have hlater := Parser.classes_later bound count (c := c') (k := source.utf8ByteSize + 1)
        (by rwa [Cursor.Ahead, hc'])
      have hparse := parse_of_scan (show scan (source ++ "\n" ++ more) = .ok (lexemes ++ lexemes') from hscan')
      rw [hprogram, EStateM.run_bind] at hparse
      cases hclasses : (Parser.many (fun c => !c.atEnd) (Parser.classDecl bound) count).run c' with
      | error e c'' =>
          rw [hclasses] at hparse hlater
          rw [hparse]
          exact ⟨.parse, e.span, _, rfl, hlater⟩
      | ok new c'' =>
          rw [hclasses] at hparse hlater
          rw [hparse]
          have hids : (Program.mk q.main (q.classes ++ new) (Parser.programSpan q.main (q.classes ++ new))).ids =
              q.ids ++ new.flatMap ClassDecl.ids := by
            rw [Program.ids, List.flatMap_append, ← List.append_assoc]
            rfl
          exact ⟨q, withoutSpans_of_parse h hparse hshape hids, rfl, new, rfl, hlater⟩

end Demitasse
