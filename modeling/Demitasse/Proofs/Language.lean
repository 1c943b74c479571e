import Demitasse.Proofs.Unambiguity

/-! The language of the parser is that of the grammar: a list of tokens is read to its end and gives a tree exactly
if the grammar derives the tree from it. -/

namespace Demitasse

namespace Parser

variable {α : Type} {c c' : Cursor}

/-- A sequence ends where no more items are announced, or at its bound. -/
theorem many_end {more : Cursor → Bool} {item : Parser α} (bound : Nat) :
    ∀ {c c' : Cursor} {as : List α}, (many more item bound).run c = .ok as c' →
      more c' = false ∨ as.length = bound := by
  induction bound with
  | zero =>
      intro c c' as h
      obtain ⟨rfl, rfl⟩ := pure_eq_ok.mp h
      exact Or.inr rfl
  | succ bound ih =>
      intro c c' as h
      rw [many, run_get_bind] at h
      by_cases hmore : more c = true
      · rw [if_pos hmore] at h
        obtain ⟨a, c₁, _, h⟩ := bind_eq_ok.mp h
        obtain ⟨rest, c₂, hrest, h⟩ := bind_eq_ok.mp h
        obtain ⟨rfl, rfl⟩ := pure_eq_ok.mp h
        exact (ih hrest).imp_right (congrArg (· + 1))
      · rw [if_neg hmore] at h
        obtain ⟨rfl, rfl⟩ := pure_eq_ok.mp h
        exact Or.inl (Bool.eq_false_iff.mpr hmore)

/-- A program that was read is derived from all tokens. -/
theorem program_reads_all {p : Program} (h : program.run c = .ok p c') : IsProgram c.tokens p ∧ c'.tokens = [] := by
  rw [program, run_get_bind] at h
  obtain ⟨main, c₁, hmain, h⟩ := bind_eq_ok.mp h
  obtain ⟨classes, c₂, hclasses, h⟩ := bind_eq_ok.mp h
  obtain ⟨rfl, rfl⟩ := pure_eq_ok.mp h
  obtain ⟨ts, hts, hreads⟩ := mainClass_sound _ hmain
  obtain ⟨us, hus, hreads'⟩ := many_sound (classDecl_sound _) _ _ hclasses
  have htokens : c.tokens = ts ++ (us ++ c₂.tokens) := by
    rw [hreads.tokens, hreads'.tokens]
  have hend : c₂.tokens = [] := by
    rcases many_end _ hclasses with hmore | hlength
    · rw [Bool.not_eq_false'] at hmore
      exact Cursor.atEnd_iff.mp hmore
    · have hcount : classes.length ≤ us.length := hus.length_le fun _ _ hclass => hclass.headNe.ne_nil
      have hmainTokens : 0 < ts.length := by
        cases hts
        exact Nat.succ_pos _
      have htotal : c.rest.length = ts.length + (us.length + c₂.tokens.length) := by
        rw [← List.length_append, ← List.length_append, ← htokens, Cursor.tokens, List.length_map]
      omega
  rw [hend, List.append_nil] at htokens
  exact ⟨htokens ▸ .mk hts hus, hend⟩

end Parser

/-- Reading a list of lexemes succeeds with a program exactly if the grammar derives the program from the tokens,
and the tokens have one derivation tree at most. -/
theorem program_run_iff_derives (lexemes : List Lexeme) :
    (∀ p : Program, (∃ q c, Parser.program.run (.start lexemes) = .ok q c ∧
      q.mapNodes Node.blank = p.mapNodes Node.blank) ↔ Derives (lexemes.map (·.token)) p) ∧
    ∀ t u : ProgramTree, t.tokens = lexemes.map (·.token) → u.tokens = lexemes.map (·.token) → t = u := by
  refine ⟨fun p => ?_, fun t u ht hu => ProgramTree.tokens_injective (ht.trans hu.symm)⟩
  rw [derives_iff]
  constructor
  · rintro ⟨q, c, hq, hshape⟩
    exact ⟨q, (Parser.program_reads_all hq).1, hshape⟩
  · rintro ⟨q, hq, hshape⟩
    obtain ⟨r, c, hr, hrq, _⟩ := Parser.program_yields (c := .start lexemes) hq rfl
    exact ⟨r, c, hr, hrq.trans hshape⟩

end Demitasse
