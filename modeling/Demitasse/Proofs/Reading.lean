import Demitasse.Compile
import Demitasse.Proofs.Grammar
import Demitasse.Proofs.Numbering
import Demitasse.Proofs.Outcome

/-! What a parser has read when it succeeds: the tokens of a tree of the grammar, while the nodes of the tree
got consecutive identities, parts before the whole. -/

namespace Demitasse

namespace Cursor

/-- The tokens that are left. -/
def tokens (c : Cursor) : List Token :=
  c.rest.map (·.token)

/-- Between two cursors `ts` were read, and `ids` were handed out one after the other. -/
structure Reads (c : Cursor) (ts : List Token) (ids : List NodeId) (c' : Cursor) : Prop where
  tokens : c.tokens = ts ++ c'.tokens
  suffix : c'.rest <:+ c.rest
  consecutive : ids = List.range' c.nextId ids.length
  nextId : c'.nextId = c.nextId + ids.length

variable {c c₁ c₂ : Cursor} {ts us : List Token} {ids ids' : List NodeId} {t : Token}

theorem Reads.refl (c : Cursor) : c.Reads [] [] c :=
  ⟨rfl, List.suffix_refl _, rfl, rfl⟩

theorem Reads.trans (h : c.Reads ts ids c₁) (h' : c₁.Reads us ids' c₂) :
    c.Reads (ts ++ us) (ids ++ ids') c₂ := by
  refine ⟨?_, h'.suffix.trans h.suffix, ?_, ?_⟩
  · rw [h.tokens, h'.tokens, List.append_assoc]
  · rw [List.length_append, ← List.range'_append_1, ← h.consecutive, ← h.nextId, ← h'.consecutive]
  · rw [h'.nextId, h.nextId, List.length_append, Nat.add_assoc]

theorem peek?_eq (c : Cursor) : c.peek? = c.tokens.head? := by
  obtain ⟨rest, last, nextId⟩ := c
  cases rest <;> rfl

theorem sees_iff : c.sees t = true ↔ c.peek? = some t := by
  rw [sees, decide_eq_true_eq]

theorem reads_advance (h : c.peek? = some t) : c.Reads [t] [] c.advance := by
  obtain ⟨rest, last, nextId⟩ := c
  cases rest with
  | nil => cases h
  | cons lexeme rest =>
      cases h
      exact ⟨rfl, List.suffix_cons lexeme rest, rfl, rfl⟩

end Cursor

namespace Parser

variable {α β : Type} {c c' : Cursor}

theorem bind_eq_ok {p : Parser α} {f : α → Parser β} {b : β} :
    (p >>= f).run c = .ok b c' ↔ ∃ a c₁, p.run c = .ok a c₁ ∧ (f a).run c₁ = .ok b c' := by
  rw [EStateM.run_bind]
  cases p.run c with
  | ok a c₁ => simp
  | error e c₁ => simp

theorem pure_eq_ok {a b : α} : (pure a : Parser α).run c = .ok b c' ↔ a = b ∧ c = c' := by
  simp

theorem run_get_bind (f : Cursor → Parser β) (c : Cursor) : (get >>= f).run c = (f c).run c :=
  rfl

theorem run_peek?_bind (f : Option Token → Parser β) (c : Cursor) : (peek? >>= f).run c = (f c.peek?).run c :=
  rfl

theorem run_here_bind (f : Span → Parser β) (c : Cursor) : (here >>= f).run c = (f c.here).run c :=
  rfl

theorem run_advance_bind (f : Unit → Parser β) (c : Cursor) : (advance >>= f).run c = (f ()).run c.advance :=
  rfl

theorem run_fail (cause : SyntaxFault) {a : α} : (fail cause : Parser α).run c ≠ .ok a c' := by
  rintro ⟨⟩

theorem accept_of_sees {t : Token} (h : c.peek? = some t) : (accept t).run c = .ok true c.advance := by
  have hsees : c.sees t = true := Cursor.sees_iff.mpr h
  rw [accept, run_get_bind, if_pos hsees]
  rfl

theorem accept_of_not_sees {t : Token} (h : c.peek? ≠ some t) : (accept t).run c = .ok false c := by
  have hsees : ¬ c.sees t = true := fun hs => h (Cursor.sees_iff.mp hs)
  rw [accept, run_get_bind, if_neg hsees]
  rfl

theorem accept_eq_ok {t : Token} {b : Bool} (h : (accept t).run c = .ok b c') :
    (b = true ∧ c.Reads [t] [] c') ∨ (b = false ∧ c = c') := by
  by_cases hpeek : c.peek? = some t
  · rw [accept_of_sees hpeek] at h
    cases h
    exact Or.inl ⟨rfl, Cursor.reads_advance hpeek⟩
  · rw [accept_of_not_sees hpeek] at h
    cases h
    exact Or.inr ⟨rfl, rfl⟩

theorem require_eq_ok {t : Token} {cause : SyntaxFault} {a : Unit} (h : (require t cause).run c = .ok a c') :
    c.Reads [t] [] c' := by
  rw [require, run_get_bind] at h
  split at h
  · rename_i hsees
    cases h
    exact Cursor.reads_advance (Cursor.sees_iff.mp hsees)
  · exact absurd h (run_fail cause)

theorem identifier_eq_ok {name : String} (h : identifier.run c = .ok name c') :
    IsName name ∧ c.Reads [.word name] [] c' := by
  rw [identifier, run_peek?_bind] at h
  split at h
  · rename_i text hpeek
    split at h
    · rename_i hname
      cases h
      exact ⟨isIdentifier_word.mp hname, Cursor.reads_advance hpeek⟩
    · exact absurd h (run_fail _)
  · exact absurd h (run_fail _)

theorem mark_eq_ok {start : Span} {node : Node} (h : (mark start).run c = .ok node c') :
    c.Reads [] [node.id] c' := by
  cases h
  exact ⟨rfl, List.suffix_refl _, rfl, rfl⟩

/-- What a parser returns is a tree of the grammar, for the tokens and with the identities that were used. -/
def Sound (p : Parser α) (D : List Token → α → Prop) (ids : α → List NodeId) : Prop :=
  ∀ ⦃c a c'⦄, p.run c = .ok a c' → ∃ ts, D ts a ∧ c.Reads ts (ids a) c'

section
variable {item : Parser α} {D : List Token → α → Prop} {ids : α → List NodeId}

theorem many_sound (hitem : item.Sound D ids) (more : Cursor → Bool) (bound : Nat) :
    (many more item bound).Sound (Many D) (·.flatMap ids) := by
  induction bound with
  | zero =>
      rintro c as c' ⟨⟩
      exact ⟨[], .nil, .refl c⟩
  | succ bound ih =>
      intro c as c' h
      rw [many, run_get_bind] at h
      split at h
      · obtain ⟨a, c₁, ha, h⟩ := bind_eq_ok.mp h
        obtain ⟨rest, c₂, hrest, h⟩ := bind_eq_ok.mp h
        obtain ⟨rfl, rfl⟩ := pure_eq_ok.mp h
        obtain ⟨ts, hts, hreads⟩ := hitem ha
        obtain ⟨us, hus, hreads'⟩ := ih hrest
        exact ⟨ts ++ us, .cons hts hus, hreads.trans hreads'⟩
      · obtain ⟨rfl, rfl⟩ := pure_eq_ok.mp h
        exact ⟨[], .nil, .refl c⟩

theorem manyUntil_sound (hitem : item.Sound D ids) (stop : Token) (unfinished : SyntaxFault) (bound : Nat) :
    (manyUntil stop unfinished item bound).Sound (Many D) (·.flatMap ids) := by
  induction bound with
  | zero => exact fun c as c' h => absurd h (run_fail _)
  | succ bound ih =>
      intro c as c' h
      rw [manyUntil, run_get_bind] at h
      split at h
      · obtain ⟨rfl, rfl⟩ := pure_eq_ok.mp h
        exact ⟨[], .nil, .refl c⟩
      split at h
      · exact absurd h (run_fail _)
      · obtain ⟨a, c₁, ha, h⟩ := bind_eq_ok.mp h
        obtain ⟨rest, c₂, hrest, h⟩ := bind_eq_ok.mp h
        obtain ⟨rfl, rfl⟩ := pure_eq_ok.mp h
        obtain ⟨ts, hts, hreads⟩ := hitem ha
        obtain ⟨us, hus, hreads'⟩ := ih hrest
        exact ⟨ts ++ us, .cons hts hus, hreads.trans hreads'⟩

theorem separated_sound (hitem : item.Sound D ids) (bound : Nat) :
    (separated item bound).Sound (fun ts as => Separated D ts as ∧ as ≠ []) (·.flatMap ids) := by
  have hone : ∀ {ts a} {c c₁ : Cursor}, D ts a → c.Reads ts (ids a) c₁ →
      ∃ ts, (Separated D ts [a] ∧ [a] ≠ []) ∧ c.Reads ts ([a].flatMap ids) c₁ := by
    intro ts a c c₁ hts hreads
    exact ⟨ts, ⟨.one hts, by simp⟩, by simpa using hreads⟩
  induction bound with
  | zero =>
      intro c as c' h
      obtain ⟨a, c₁, ha, h⟩ := bind_eq_ok.mp h
      obtain ⟨rfl, rfl⟩ := pure_eq_ok.mp h
      obtain ⟨ts, hts, hreads⟩ := hitem ha
      exact hone hts hreads
  | succ bound ih =>
      intro c as c' h
      obtain ⟨a, c₁, ha, h⟩ := bind_eq_ok.mp h
      obtain ⟨ts, hts, hreads⟩ := hitem ha
      obtain ⟨b, c₂, haccept, h⟩ := bind_eq_ok.mp h
      rcases accept_eq_ok haccept with ⟨rfl, hcomma⟩ | ⟨rfl, rfl⟩
      · obtain ⟨rest, c₃, hrest, h⟩ := bind_eq_ok.mp h
        obtain ⟨rfl, rfl⟩ := pure_eq_ok.mp h
        obtain ⟨us, ⟨hus, hne⟩, hreads'⟩ := ih hrest
        obtain ⟨b, rest, rfl⟩ := List.exists_cons_of_ne_nil hne
        refine ⟨ts ++ .comma :: us, ⟨.cons hts hus, by simp⟩, ?_⟩
        simpa using hreads.trans (hcomma.trans hreads')
      · obtain ⟨rfl, rfl⟩ := pure_eq_ok.mp h
        exact hone hts hreads

theorem parenthesised_sound (hitem : item.Sound D ids) (bound : Nat) :
    (parenthesised item bound).Sound
      (fun ts as => ∃ us, ts = .lparen :: (us ++ [.rparen]) ∧ Separated D us as) (·.flatMap ids) := by
  intro c as c' h
  obtain ⟨_, c₁, hopen, h⟩ := bind_eq_ok.mp h
  have hopen := require_eq_ok hopen
  rw [run_get_bind] at h
  have hitems : ∃ us c₂, Separated D us as ∧ c₁.Reads us (as.flatMap ids) c₂ ∧
      (expect .rparen >>= fun _ => pure as).run c₂ = .ok as c' := by
    dsimp only at h
    split at h
    · obtain ⟨items, c₂, hitems, h⟩ := bind_eq_ok.mp h
      obtain ⟨rfl, rfl⟩ := pure_eq_ok.mp hitems
      obtain ⟨_, _, _, hend⟩ := bind_eq_ok.mp h
      obtain ⟨rfl, rfl⟩ := pure_eq_ok.mp hend
      exact ⟨[], c₁, .nil, .refl c₁, h⟩
    · obtain ⟨items, c₂, hitems, h⟩ := bind_eq_ok.mp h
      obtain ⟨_, _, _, hend⟩ := bind_eq_ok.mp h
      obtain ⟨rfl, rfl⟩ := pure_eq_ok.mp hend
      obtain ⟨us, ⟨hus, _⟩, hreads⟩ := separated_sound hitem bound hitems
      exact ⟨us, c₂, hus, hreads, h⟩
  obtain ⟨us, c₂, hus, hreads, h⟩ := hitems
  obtain ⟨_, c₃, hclose, h⟩ := bind_eq_ok.mp h
  have hclose := require_eq_ok hclose
  obtain ⟨-, rfl⟩ := pure_eq_ok.mp h
  refine ⟨_, ⟨us, rfl, hus⟩, ?_⟩
  simpa using hopen.trans (hreads.trans hclose)

end

/-! ### Expressions -/

theorem word_eq_ofKeyword {text : String} {k : Keyword} (h : Keyword.ofSpelling? text = some k) :
    Token.word text = .ofKeyword k := by
  have hk : k.spelling = text := by simpa using List.find?_some h
  rw [Token.ofKeyword, hk]

section
variable {nested operand : Parser Expr}

/-- An expression of one token. -/
theorem leaf_sound {t : Token} {f : Node → Expr} {start : Span} {e : Expr} (hpeek : c.peek? = some t)
    (htree : ∀ node, IsExpr .primary [t] (f node)) (hids : ∀ node, (f node).ids = [node.id])
    (h : (do advance; return f (← mark start)).run c = .ok e c') :
    ∃ ts, IsExpr .primary ts e ∧ c.Reads ts e.ids c' := by
  rw [run_advance_bind] at h
  obtain ⟨node, c₁, hmark, h⟩ := bind_eq_ok.mp h
  obtain ⟨rfl, rfl⟩ := pure_eq_ok.mp h
  refine ⟨[t], htree node, ?_⟩
  rw [hids]
  exact (Cursor.reads_advance hpeek).trans (mark_eq_ok hmark)

theorem wordExpr_sound (hnested : nested.Sound (IsExpr .conjunction) Expr.ids) {start : Span} {text : String}
    {e : Expr} (hpeek : c.peek? = some (.word text)) (h : (wordExpr nested start text).run c = .ok e c') :
    ∃ ts, IsExpr .primary ts e ∧ c.Reads ts e.ids c' := by
  rw [wordExpr] at h
  split at h
  · rename_i hk
    exact leaf_sound (word_eq_ofKeyword hk ▸ hpeek) (fun node => .bool node true) (fun _ => rfl) h
  · rename_i hk
    exact leaf_sound (word_eq_ofKeyword hk ▸ hpeek) (fun node => .bool node false) (fun _ => rfl) h
  · rename_i hk
    exact leaf_sound (word_eq_ofKeyword hk ▸ hpeek) (fun node => .this node) (fun _ => rfl) h
  · rename_i hk
    have hnew := Cursor.reads_advance (word_eq_ofKeyword hk ▸ hpeek)
    rw [run_advance_bind] at h
    obtain ⟨b, c₁, haccept, h⟩ := bind_eq_ok.mp h
    rcases accept_eq_ok haccept with ⟨rfl, hint⟩ | ⟨rfl, rfl⟩
    · obtain ⟨_, c₂, hopen, h⟩ := bind_eq_ok.mp h
      obtain ⟨size, c₃, hsize, h⟩ := bind_eq_ok.mp h
      obtain ⟨_, c₄, hclose, h⟩ := bind_eq_ok.mp h
      obtain ⟨node, c₅, hmark, h⟩ := bind_eq_ok.mp h
      obtain ⟨rfl, rfl⟩ := pure_eq_ok.mp h
      obtain ⟨ts, hts, hreads⟩ := hnested hsize
      refine ⟨_, .newArray node hts, ?_⟩
      simpa [Expr.ids] using hnew.trans (hint.trans ((require_eq_ok hopen).trans
        (hreads.trans ((require_eq_ok hclose).trans (mark_eq_ok hmark)))))
    · obtain ⟨className, c₂, hname, h⟩ := bind_eq_ok.mp h
      obtain ⟨_, c₃, hopen, h⟩ := bind_eq_ok.mp h
      obtain ⟨_, c₄, hclose, h⟩ := bind_eq_ok.mp h
      obtain ⟨node, c₅, hmark, h⟩ := bind_eq_ok.mp h
      obtain ⟨rfl, rfl⟩ := pure_eq_ok.mp h
      obtain ⟨hname, hreads⟩ := identifier_eq_ok hname
      refine ⟨_, .newObject node hname, ?_⟩
      simpa [Expr.ids] using hnew.trans (hreads.trans ((require_eq_ok hopen).trans
        ((require_eq_ok hclose).trans (mark_eq_ok hmark))))
  · exact absurd h (run_fail _)
  · rename_i hk
    exact leaf_sound hpeek (fun node => .var node (isName_iff.mpr hk)) (fun _ => rfl) h

theorem primary_sound (hnested : nested.Sound (IsExpr .conjunction) Expr.ids) :
    (primary nested).Sound (IsExpr .primary) Expr.ids := by
  intro c e c' h
  rw [primary, run_here_bind, run_peek?_bind] at h
  split at h
  · rename_i value hpeek
    rw [run_advance_bind] at h
    split at h
    · rename_i hvalue
      rw [maxLiteral_eq] at hvalue
      exact leaf_sound hpeek (fun node => .int node hvalue) (fun _ => rfl) h
    · cases h
  · rename_i hpeek
    rw [run_advance_bind] at h
    obtain ⟨inner, c₁, hinner, h⟩ := bind_eq_ok.mp h
    obtain ⟨_, c₂, hclose, h⟩ := bind_eq_ok.mp h
    obtain ⟨rfl, rfl⟩ := pure_eq_ok.mp h
    obtain ⟨ts, hts, hreads⟩ := hnested hinner
    refine ⟨_, .paren hts, ?_⟩
    simpa using (Cursor.reads_advance hpeek).trans (hreads.trans (require_eq_ok hclose))
  · rename_i text hpeek
    exact wordExpr_sound hnested hpeek h
  · exact absurd h (run_fail _)

/-- Operators of a level continue what was read of it. -/
theorem chain_sound (lvl : Level) (hoperand : operand.Sound (IsExpr lvl.inner) Expr.ids) (bound : Nat) :
    ∀ {c₀ c c' : Cursor} {ts : List Token} {left e : Expr}, IsExpr lvl ts left → c₀.Reads ts left.ids c →
      (chain lvl.operator operand bound left).run c = .ok e c' →
      ∃ ts, IsExpr lvl ts e ∧ c₀.Reads ts e.ids c' := by
  induction bound with
  | zero =>
      intro c₀ c c' ts left e hleft hreads h
      obtain ⟨rfl, rfl⟩ := pure_eq_ok.mp h
      exact ⟨ts, hleft, hreads⟩
  | succ bound ih =>
      intro c₀ c c' ts left e hleft hreads h
      rw [chain, run_peek?_bind] at h
      split at h
      · rename_i op hop
        obtain ⟨t, hpeek, hop⟩ := Option.bind_eq_some_iff.mp hop
        obtain ⟨rfl, hlvl⟩ := Level.operator_eq_some.mp hop
        rw [run_advance_bind] at h
        obtain ⟨right, c₁, hright, h⟩ := bind_eq_ok.mp h
        obtain ⟨node, c₂, hmark, h⟩ := bind_eq_ok.mp h
        obtain ⟨us, hus, hreads'⟩ := hoperand hright
        refine ih (.binary node hlvl hleft hus) ?_ h
        simpa [Expr.ids] using hreads.trans ((Cursor.reads_advance hpeek).trans
          (hreads'.trans (mark_eq_ok hmark)))
      · obtain ⟨rfl, rfl⟩ := pure_eq_ok.mp h
        exact ⟨ts, hleft, hreads⟩

theorem leftAssoc_sound (lvl : Level) (hlvl : lvl ≠ .primary)
    (hoperand : operand.Sound (IsExpr lvl.inner) Expr.ids) (bound : Nat) :
    (leftAssoc lvl.operator bound operand).Sound (IsExpr lvl) Expr.ids := by
  intro c e c' h
  obtain ⟨left, c₁, hleft, h⟩ := bind_eq_ok.mp h
  obtain ⟨ts, hts, hreads⟩ := hoperand hleft
  exact chain_sound lvl hoperand bound (.lift hlvl hts) hreads h

/-- Suffixes continue what was read of an expression. -/
theorem suffixes_sound (hnested : nested.Sound (IsExpr .conjunction) Expr.ids) (start : Span) (bound : Nat) :
    ∀ {c₀ c c' : Cursor} {ts : List Token} {e e' : Expr}, IsExpr .suffixed ts e → c₀.Reads ts e.ids c →
      (suffixes nested start bound e).run c = .ok e' c' →
      ∃ ts, IsExpr .suffixed ts e' ∧ c₀.Reads ts e'.ids c' := by
  induction bound with
  | zero =>
      intro c₀ c c' ts e e' he hreads h
      obtain ⟨rfl, rfl⟩ := pure_eq_ok.mp h
      exact ⟨ts, he, hreads⟩
  | succ bound ih =>
      intro c₀ c c' ts e e' he hreads h
      rw [suffixes, run_peek?_bind] at h
      split at h
      · rename_i hpeek
        rw [run_advance_bind] at h
        obtain ⟨index, c₁, hindex, h⟩ := bind_eq_ok.mp h
        obtain ⟨_, c₂, hclose, h⟩ := bind_eq_ok.mp h
        obtain ⟨node, c₃, hmark, h⟩ := bind_eq_ok.mp h
        obtain ⟨us, hus, hreads'⟩ := hnested hindex
        refine ih (.element node he hus) ?_ h
        simpa [Expr.ids] using hreads.trans ((Cursor.reads_advance hpeek).trans
          (hreads'.trans ((require_eq_ok hclose).trans (mark_eq_ok hmark))))
      · rename_i hpeek
        have hdot := Cursor.reads_advance hpeek
        rw [run_advance_bind, run_get_bind] at h
        split at h
        · rename_i hlength
          have hword : c.advance.peek? = some (.word "length") :=
            Cursor.sees_iff.mp (Bool.and_eq_true_iff.mp hlength).1
          rw [run_advance_bind] at h
          obtain ⟨node, c₁, hmark, h⟩ := bind_eq_ok.mp h
          refine ih (.length node he) ?_ h
          simpa [Expr.ids] using hreads.trans (hdot.trans
            ((Cursor.reads_advance hword).trans (mark_eq_ok hmark)))
        · obtain ⟨method, c₁, hmethod, h⟩ := bind_eq_ok.mp h
          obtain ⟨args, c₂, hargs, h⟩ := bind_eq_ok.mp h
          obtain ⟨node, c₃, hmark, h⟩ := bind_eq_ok.mp h
          obtain ⟨hname, hword⟩ := identifier_eq_ok hmethod
          obtain ⟨_, ⟨us, rfl, hus⟩, hreads'⟩ := parenthesised_sound hnested bound hargs
          refine ih (.call node he hname hus) ?_ h
          simpa [Expr.ids, Expr.idsAll_eq] using hreads.trans (hdot.trans
            (hword.trans (hreads'.trans (mark_eq_ok hmark))))
      · obtain ⟨rfl, rfl⟩ := pure_eq_ok.mp h
        exact ⟨ts, he, hreads⟩

theorem suffixed_sound (hnested : nested.Sound (IsExpr .conjunction) Expr.ids) (bound : Nat) :
    (suffixed nested bound).Sound (IsExpr .suffixed) Expr.ids := by
  intro c e c' h
  rw [suffixed, run_here_bind] at h
  obtain ⟨first, c₁, hfirst, h⟩ := bind_eq_ok.mp h
  obtain ⟨ts, hts, hreads⟩ := primary_sound hnested hfirst
  exact suffixes_sound hnested c.here bound (.lift (by decide) hts) hreads h

theorem negation_sound (hoperand : operand.Sound (IsExpr .suffixed) Expr.ids) (bound : Nat) :
    (negation operand bound).Sound (IsExpr .negation) Expr.ids := by
  have hlift : operand.Sound (IsExpr .negation) Expr.ids := by
    intro c e c' h
    obtain ⟨ts, hts, hreads⟩ := hoperand h
    exact ⟨ts, .lift (by decide) hts, hreads⟩
  induction bound with
  | zero => exact hlift
  | succ bound ih =>
      intro c e c' h
      rw [negation, run_here_bind] at h
      obtain ⟨b, c₁, haccept, h⟩ := bind_eq_ok.mp h
      rcases accept_eq_ok haccept with ⟨rfl, hbang⟩ | ⟨rfl, rfl⟩
      · obtain ⟨inner, c₂, hinner, h⟩ := bind_eq_ok.mp h
        obtain ⟨node, c₃, hmark, h⟩ := bind_eq_ok.mp h
        obtain ⟨rfl, rfl⟩ := pure_eq_ok.mp h
        obtain ⟨ts, hts, hreads⟩ := ih hinner
        refine ⟨_, .not node hts, ?_⟩
        simpa [Expr.ids] using hbang.trans (hreads.trans (mark_eq_ok hmark))
      · exact hlift h

end

theorem exprWithin_sound (bound : Nat) : (exprWithin bound).Sound (IsExpr .conjunction) Expr.ids := by
  induction bound with
  | zero => exact fun c e c' h => absurd h (run_fail _)
  | succ bound ih =>
      have hnegation := negation_sound (suffixed_sound ih bound) (bound + 1)
      have hproduct := leftAssoc_sound .product (by decide) hnegation bound
      have hsum := leftAssoc_sound .sum (by decide) hproduct bound
      have hcomparison := leftAssoc_sound .comparison (by decide) hsum bound
      exact leftAssoc_sound .conjunction (by decide) hcomparison bound

section
variable {nested : Parser Stmt} {value : Parser Expr}

theorem condition_sound (hvalue : value.Sound (IsExpr .conjunction) Expr.ids) {e : Expr}
    (h : (condition value).run c = .ok e c') :
    ∃ ts, IsExpr .conjunction ts e ∧ c.Reads (.lparen :: (ts ++ [.rparen])) e.ids c' := by
  obtain ⟨_, c₁, hopen, h⟩ := bind_eq_ok.mp h
  obtain ⟨cond, c₂, hcond, h⟩ := bind_eq_ok.mp h
  obtain ⟨_, c₃, hclose, h⟩ := bind_eq_ok.mp h
  obtain ⟨rfl, rfl⟩ := pure_eq_ok.mp h
  obtain ⟨ts, hts, hreads⟩ := hvalue hcond
  refine ⟨ts, hts, ?_⟩
  simpa using (require_eq_ok hopen).trans (hreads.trans (require_eq_ok hclose))

theorem assignment_sound (hvalue : value.Sound (IsExpr .conjunction) Expr.ids) (start : Span) :
    (assignment value start).Sound IsStmt Stmt.ids := by
  intro c s c' h
  obtain ⟨target, c₁, htarget, h⟩ := bind_eq_ok.mp h
  obtain ⟨hname, hword⟩ := identifier_eq_ok htarget
  obtain ⟨b, c₂, haccept, h⟩ := bind_eq_ok.mp h
  rcases accept_eq_ok haccept with ⟨rfl, hopen⟩ | ⟨rfl, rfl⟩
  · obtain ⟨index, c₃, hindex, h⟩ := bind_eq_ok.mp h
    obtain ⟨_, c₄, hclose, h⟩ := bind_eq_ok.mp h
    obtain ⟨_, c₅, hassign, h⟩ := bind_eq_ok.mp h
    obtain ⟨element, c₆, helement, h⟩ := bind_eq_ok.mp h
    obtain ⟨_, c₇, hend, h⟩ := bind_eq_ok.mp h
    obtain ⟨node, c₈, hmark, h⟩ := bind_eq_ok.mp h
    obtain ⟨rfl, rfl⟩ := pure_eq_ok.mp h
    obtain ⟨ts, hts, hreads⟩ := hvalue hindex
    obtain ⟨us, hus, hreads'⟩ := hvalue helement
    refine ⟨_, .assignElement node hname hts hus, ?_⟩
    simpa [Stmt.ids] using hword.trans (hopen.trans (hreads.trans ((require_eq_ok hclose).trans
      ((require_eq_ok hassign).trans (hreads'.trans ((require_eq_ok hend).trans (mark_eq_ok hmark)))))))
  · obtain ⟨_, c₃, hassign, h⟩ := bind_eq_ok.mp h
    obtain ⟨e, c₄, he, h⟩ := bind_eq_ok.mp h
    obtain ⟨_, c₅, hend, h⟩ := bind_eq_ok.mp h
    obtain ⟨node, c₆, hmark, h⟩ := bind_eq_ok.mp h
    obtain ⟨rfl, rfl⟩ := pure_eq_ok.mp h
    obtain ⟨ts, hts, hreads⟩ := hvalue he
    refine ⟨_, .assign node hname hts, ?_⟩
    simpa [Stmt.ids] using hword.trans ((require_eq_ok hassign).trans
      (hreads.trans ((require_eq_ok hend).trans (mark_eq_ok hmark))))

theorem wordStmt_sound (hnested : nested.Sound IsStmt Stmt.ids)
    (hvalue : value.Sound (IsExpr .conjunction) Expr.ids) {start : Span} {text : String} {s : Stmt}
    (hpeek : c.peek? = some (.word text)) (h : (wordStmt nested value start text).run c = .ok s c') :
    ∃ ts, IsStmt ts s ∧ c.Reads ts s.ids c' := by
  rw [wordStmt] at h
  split at h
  · rename_i hk
    have hif := Cursor.reads_advance (word_eq_ofKeyword hk ▸ hpeek)
    rw [run_advance_bind] at h
    obtain ⟨cond, c₁, hcond, h⟩ := bind_eq_ok.mp h
    obtain ⟨thenBranch, c₂, hthen, h⟩ := bind_eq_ok.mp h
    obtain ⟨_, c₃, helseWord, h⟩ := bind_eq_ok.mp h
    obtain ⟨elseBranch, c₄, helse, h⟩ := bind_eq_ok.mp h
    obtain ⟨node, c₅, hmark, h⟩ := bind_eq_ok.mp h
    obtain ⟨rfl, rfl⟩ := pure_eq_ok.mp h
    obtain ⟨ts, hts, hreads⟩ := condition_sound hvalue hcond
    obtain ⟨us, hus, hreads₁⟩ := hnested hthen
    obtain ⟨vs, hvs, hreads₂⟩ := hnested helse
    refine ⟨_, .ifElse node hts hus hvs, ?_⟩
    simpa [Stmt.ids] using hif.trans (hreads.trans (hreads₁.trans ((require_eq_ok helseWord).trans
      (hreads₂.trans (mark_eq_ok hmark)))))
  · rename_i hk
    have hwhile := Cursor.reads_advance (word_eq_ofKeyword hk ▸ hpeek)
    rw [run_advance_bind] at h
    obtain ⟨cond, c₁, hcond, h⟩ := bind_eq_ok.mp h
    obtain ⟨body, c₂, hbody, h⟩ := bind_eq_ok.mp h
    obtain ⟨node, c₃, hmark, h⟩ := bind_eq_ok.mp h
    obtain ⟨rfl, rfl⟩ := pure_eq_ok.mp h
    obtain ⟨ts, hts, hreads⟩ := condition_sound hvalue hcond
    obtain ⟨us, hus, hreads'⟩ := hnested hbody
    refine ⟨_, .loop node hts hus, ?_⟩
    simpa [Stmt.ids] using hwhile.trans (hreads.trans (hreads'.trans (mark_eq_ok hmark)))
  · exact absurd h (run_fail _)
  · exact assignment_sound hvalue start h

theorem stmtForm_sound (hnested : nested.Sound IsStmt Stmt.ids)
    (hvalue : value.Sound (IsExpr .conjunction) Expr.ids) (bound : Nat) :
    (stmtForm nested value bound).Sound IsStmt Stmt.ids := by
  intro c s c' h
  rw [stmtForm, run_here_bind, run_peek?_bind] at h
  split at h
  · rename_i hpeek
    rw [run_advance_bind] at h
    obtain ⟨body, c₁, hbody, h⟩ := bind_eq_ok.mp h
    obtain ⟨_, c₂, hclose, h⟩ := bind_eq_ok.mp h
    obtain ⟨node, c₃, hmark, h⟩ := bind_eq_ok.mp h
    obtain ⟨rfl, rfl⟩ := pure_eq_ok.mp h
    obtain ⟨ts, hts, hreads⟩ := manyUntil_sound hnested _ _ bound hbody
    refine ⟨_, .block node hts, ?_⟩
    simpa [Stmt.ids, Stmt.idsAll_eq] using (Cursor.reads_advance hpeek).trans
      (hreads.trans ((require_eq_ok hclose).trans (mark_eq_ok hmark)))
  · rename_i hpeek
    rw [run_advance_bind] at h
    obtain ⟨arg, c₁, harg, h⟩ := bind_eq_ok.mp h
    obtain ⟨_, c₂, hend, h⟩ := bind_eq_ok.mp h
    obtain ⟨node, c₃, hmark, h⟩ := bind_eq_ok.mp h
    obtain ⟨rfl, rfl⟩ := pure_eq_ok.mp h
    obtain ⟨ts, hts, hreads⟩ := condition_sound hvalue harg
    refine ⟨_, .print node hts, ?_⟩
    simpa [Stmt.ids] using (Cursor.reads_advance hpeek).trans
      (hreads.trans ((require_eq_ok hend).trans (mark_eq_ok hmark)))
  · rename_i text hpeek
    exact wordStmt_sound hnested hvalue hpeek h
  · exact absurd h (run_fail _)

end

theorem stmtWithin_sound (bound : Nat) : (stmtWithin bound).Sound IsStmt Stmt.ids := by
  induction bound with
  | zero => exact fun c s c' h => absurd h (run_fail _)
  | succ bound ih => exact stmtForm_sound ih (exprWithin_sound bound) bound

/-! ### Declarations and programs -/

theorem type_sound : type.Sound IsType (fun _ => []) := by
  intro c ty c' h
  obtain ⟨b, c₁, haccept, h⟩ := bind_eq_ok.mp h
  rcases accept_eq_ok haccept with ⟨rfl, hint⟩ | ⟨rfl, rfl⟩
  · obtain ⟨b, c₂, haccept, h⟩ := bind_eq_ok.mp h
    rcases accept_eq_ok haccept with ⟨rfl, hopen⟩ | ⟨rfl, rfl⟩
    · obtain ⟨_, c₃, hclose, h⟩ := bind_eq_ok.mp h
      obtain ⟨rfl, rfl⟩ := pure_eq_ok.mp h
      exact ⟨_, .intArray, hint.trans (hopen.trans (require_eq_ok hclose))⟩
    · obtain ⟨rfl, rfl⟩ := pure_eq_ok.mp h
      exact ⟨_, .int, hint⟩
  · obtain ⟨b, c₂, haccept, h⟩ := bind_eq_ok.mp h
    rcases accept_eq_ok haccept with ⟨rfl, hboolean⟩ | ⟨rfl, rfl⟩
    · obtain ⟨rfl, rfl⟩ := pure_eq_ok.mp h
      exact ⟨_, .boolean, hboolean⟩
    · rw [if_neg Bool.false_ne_true, run_get_bind] at h
      split at h
      · obtain ⟨className, c₃, hname, h⟩ := bind_eq_ok.mp h
        obtain ⟨rfl, rfl⟩ := pure_eq_ok.mp h
        obtain ⟨hname, hreads⟩ := identifier_eq_ok hname
        exact ⟨_, .object hname, hreads⟩
      · exact absurd h (run_fail _)

theorem formal_sound : formal.Sound IsFormal VarDecl.ids := by
  intro c v c' h
  rw [formal, run_here_bind] at h
  obtain ⟨ty, c₁, hty, h⟩ := bind_eq_ok.mp h
  obtain ⟨name, c₂, hname, h⟩ := bind_eq_ok.mp h
  obtain ⟨node, c₃, hmark, h⟩ := bind_eq_ok.mp h
  obtain ⟨rfl, rfl⟩ := pure_eq_ok.mp h
  obtain ⟨ts, hts, hreads⟩ := type_sound hty
  obtain ⟨hname, hword⟩ := identifier_eq_ok hname
  refine ⟨_, .mk hts hname, ?_⟩
  simpa [VarDecl.ids] using hreads.trans (hword.trans (mark_eq_ok hmark))

theorem varDecl_sound : varDecl.Sound IsVarDecl VarDecl.ids := by
  intro c v c' h
  rw [varDecl, run_here_bind] at h
  obtain ⟨ty, c₁, hty, h⟩ := bind_eq_ok.mp h
  obtain ⟨name, c₂, hname, h⟩ := bind_eq_ok.mp h
  obtain ⟨_, c₃, hend, h⟩ := bind_eq_ok.mp h
  obtain ⟨node, c₄, hmark, h⟩ := bind_eq_ok.mp h
  obtain ⟨rfl, rfl⟩ := pure_eq_ok.mp h
  obtain ⟨ts, hts, hreads⟩ := type_sound hty
  obtain ⟨hname, hword⟩ := identifier_eq_ok hname
  refine ⟨_, .mk hts hname, ?_⟩
  simpa [VarDecl.ids] using hreads.trans (hword.trans ((require_eq_ok hend).trans (mark_eq_ok hmark)))

theorem methodDecl_sound (bound : Nat) : (methodDecl bound).Sound IsMethod MethodDecl.ids := by
  intro c m c' h
  rw [methodDecl, run_here_bind] at h
  obtain ⟨b, c₁, haccept, h⟩ := bind_eq_ok.mp h
  obtain ⟨returnType, c₂, htype, h⟩ := bind_eq_ok.mp h
  obtain ⟨name, c₃, hname, h⟩ := bind_eq_ok.mp h
  obtain ⟨formals, c₄, hformals, h⟩ := bind_eq_ok.mp h
  obtain ⟨_, c₅, hopen, h⟩ := bind_eq_ok.mp h
  obtain ⟨locals, c₆, hlocals, h⟩ := bind_eq_ok.mp h
  obtain ⟨body, c₇, hbody, h⟩ := bind_eq_ok.mp h
  obtain ⟨_, c₈, hreturn, h⟩ := bind_eq_ok.mp h
  obtain ⟨result, c₉, hresult, h⟩ := bind_eq_ok.mp h
  obtain ⟨_, c₁₀, hend, h⟩ := bind_eq_ok.mp h
  obtain ⟨_, c₁₁, hclose, h⟩ := bind_eq_ok.mp h
  obtain ⟨node, c₁₂, hmark, h⟩ := bind_eq_ok.mp h
  obtain ⟨rfl, rfl⟩ := pure_eq_ok.mp h
  obtain ⟨access, haccess, hreads⟩ : ∃ access, (access = [] ∨ access = [.ofKeyword .kwPublic]) ∧
      c.Reads access [] c₁ := by
    rcases accept_eq_ok haccept with ⟨-, hpublic⟩ | ⟨-, rfl⟩
    · exact ⟨_, Or.inr rfl, hpublic⟩
    · exact ⟨[], Or.inl rfl, .refl c⟩
  obtain ⟨ts, hts, hreads₁⟩ := type_sound htype
  obtain ⟨hname, hword⟩ := identifier_eq_ok hname
  obtain ⟨_, ⟨fs, rfl, hfs⟩, hreads₂⟩ := parenthesised_sound formal_sound bound hformals
  obtain ⟨vs, hvs, hreads₃⟩ := many_sound varDecl_sound _ bound hlocals
  obtain ⟨bs, hbs, hreads₄⟩ := manyUntil_sound (stmtWithin_sound bound) _ _ bound hbody
  obtain ⟨rs, hrs, hreads₅⟩ := exprWithin_sound bound hresult
  refine ⟨_, .mk haccess hts hname hfs hvs hbs hrs, ?_⟩
  simpa [MethodDecl.ids, Stmt.idsAll_eq] using hreads.trans (hreads₁.trans (hword.trans (hreads₂.trans
    ((require_eq_ok hopen).trans (hreads₃.trans (hreads₄.trans ((require_eq_ok hreturn).trans (hreads₅.trans
      ((require_eq_ok hend).trans ((require_eq_ok hclose).trans (mark_eq_ok hmark)))))))))))

theorem member_sound (bound : Nat) : (member bound).Sound IsMethod MethodDecl.ids := by
  intro c m c' h
  rw [member, run_get_bind] at h
  split at h
  · exact absurd h (run_fail _)
  · exact methodDecl_sound bound h

theorem superclass_sound : superclass.Sound IsExtension (fun _ => []) := by
  intro c superName c' h
  obtain ⟨b, c₁, haccept, h⟩ := bind_eq_ok.mp h
  rcases accept_eq_ok haccept with ⟨rfl, hextends⟩ | ⟨rfl, rfl⟩
  · obtain ⟨name, c₂, hname, h⟩ := bind_eq_ok.mp h
    obtain ⟨rfl, rfl⟩ := pure_eq_ok.mp h
    obtain ⟨hname, hword⟩ := identifier_eq_ok hname
    exact ⟨_, .some hname, hextends.trans hword⟩
  · obtain ⟨rfl, rfl⟩ := pure_eq_ok.mp h
    exact ⟨[], .none, .refl c⟩

theorem classDecl_sound (bound : Nat) : (classDecl bound).Sound IsClass ClassDecl.ids := by
  intro c d c' h
  rw [classDecl, run_here_bind] at h
  obtain ⟨_, c₁, hclass, h⟩ := bind_eq_ok.mp h
  obtain ⟨name, c₂, hname, h⟩ := bind_eq_ok.mp h
  obtain ⟨superName, c₃, hsuper, h⟩ := bind_eq_ok.mp h
  obtain ⟨_, c₄, hopen, h⟩ := bind_eq_ok.mp h
  obtain ⟨fields, c₅, hfields, h⟩ := bind_eq_ok.mp h
  obtain ⟨methods, c₆, hmethods, h⟩ := bind_eq_ok.mp h
  obtain ⟨_, c₇, hclose, h⟩ := bind_eq_ok.mp h
  obtain ⟨node, c₈, hmark, h⟩ := bind_eq_ok.mp h
  obtain ⟨rfl, rfl⟩ := pure_eq_ok.mp h
  obtain ⟨hname, hword⟩ := identifier_eq_ok hname
  obtain ⟨ts, hts, hreads⟩ := superclass_sound hsuper
  obtain ⟨fs, hfs, hreads₁⟩ := many_sound varDecl_sound _ bound hfields
  obtain ⟨ms, hms, hreads₂⟩ := manyUntil_sound (member_sound bound) _ _ bound hmethods
  refine ⟨_, .mk hname hts hfs hms, ?_⟩
  simpa [ClassDecl.ids] using (require_eq_ok hclass).trans (hword.trans (hreads.trans
    ((require_eq_ok hopen).trans (hreads₁.trans (hreads₂.trans
      ((require_eq_ok hclose).trans (mark_eq_ok hmark)))))))

theorem mainClass_sound (bound : Nat) : (mainClass bound).Sound IsMain MainClass.ids := by
  intro c m c' h
  rw [mainClass, run_here_bind] at h
  obtain ⟨_, c₁, hclass, h⟩ := bind_eq_ok.mp h
  obtain ⟨name, c₂, hname, h⟩ := bind_eq_ok.mp h
  obtain ⟨_, c₃, hopen, h⟩ := bind_eq_ok.mp h
  obtain ⟨_, c₄, hpublic, h⟩ := bind_eq_ok.mp h
  obtain ⟨_, c₅, hstatic, h⟩ := bind_eq_ok.mp h
  obtain ⟨_, c₆, hvoid, h⟩ := bind_eq_ok.mp h
  obtain ⟨_, c₇, hmain, h⟩ := bind_eq_ok.mp h
  obtain ⟨_, c₈, hlparen, h⟩ := bind_eq_ok.mp h
  obtain ⟨_, c₉, hstring, h⟩ := bind_eq_ok.mp h
  obtain ⟨_, c₁₀, hlbracket, h⟩ := bind_eq_ok.mp h
  obtain ⟨_, c₁₁, hrbracket, h⟩ := bind_eq_ok.mp h
  obtain ⟨argsName, c₁₂, hargs, h⟩ := bind_eq_ok.mp h
  obtain ⟨_, c₁₃, hrparen, h⟩ := bind_eq_ok.mp h
  obtain ⟨_, c₁₄, hlbrace, h⟩ := bind_eq_ok.mp h
  obtain ⟨body, c₁₅, hbody, h⟩ := bind_eq_ok.mp h
  obtain ⟨_, c₁₆, hrbrace, h⟩ := bind_eq_ok.mp h
  obtain ⟨_, c₁₇, hclose, h⟩ := bind_eq_ok.mp h
  obtain ⟨node, c₁₈, hmark, h⟩ := bind_eq_ok.mp h
  obtain ⟨rfl, rfl⟩ := pure_eq_ok.mp h
  obtain ⟨hname, hword⟩ := identifier_eq_ok hname
  obtain ⟨hargs, hargsWord⟩ := identifier_eq_ok hargs
  obtain ⟨ts, hts, hreads⟩ := stmtWithin_sound bound hbody
  refine ⟨_, .mk hname hargs hts, ?_⟩
  have hhead := (require_eq_ok hclass).trans (hword.trans ((require_eq_ok hopen).trans
    ((require_eq_ok hpublic).trans ((require_eq_ok hstatic).trans ((require_eq_ok hvoid).trans
      ((require_eq_ok hmain).trans ((require_eq_ok hlparen).trans ((require_eq_ok hstring).trans
        ((require_eq_ok hlbracket).trans ((require_eq_ok hrbracket).trans (hargsWord.trans
          ((require_eq_ok hrparen).trans (require_eq_ok hlbrace)))))))))))))
  simpa [MainClass.ids] using hhead.trans (hreads.trans ((require_eq_ok hrbrace).trans
    ((require_eq_ok hclose).trans (mark_eq_ok hmark))))

theorem program_sound : program.Sound IsProgram Program.ids := by
  intro c p c' h
  rw [program, run_get_bind] at h
  obtain ⟨main, c₁, hmain, h⟩ := bind_eq_ok.mp h
  obtain ⟨classes, c₂, hclasses, h⟩ := bind_eq_ok.mp h
  obtain ⟨rfl, rfl⟩ := pure_eq_ok.mp h
  obtain ⟨ts, hts, hreads⟩ := mainClass_sound _ hmain
  obtain ⟨us, hus, hreads'⟩ := many_sound (classDecl_sound _) _ _ hclasses
  exact ⟨ts ++ us, .mk hts hus, hreads.trans hreads'⟩

end Parser

theorem parse_eq_ok {source : String} {p : Program} :
    parse source = .ok p ↔
      ∃ lexemes c, scan source = .ok lexemes ∧ Parser.program.run (.start lexemes) = .ok p c := by
  rw [parse, bind_eq_ok]
  constructor
  · rintro ⟨lexemes, hscan, h⟩
    split at h
    · rename_i hrun
      cases h
      exact ⟨lexemes, _, mapError_eq_ok.mp hscan, hrun⟩
    · cases h
  · rintro ⟨lexemes, c, hscan, hrun⟩
    refine ⟨lexemes, mapError_eq_ok.mpr hscan, ?_⟩
    rw [hrun]
    rfl

/-- The identities of a program that was read are the numbers from zero on. -/
theorem ids_of_parse {source : String} {p : Program} (h : parse source = .ok p) :
    p.ids = List.range p.ids.length := by
  obtain ⟨lexemes, c, _, hrun⟩ := parse_eq_ok.mp h
  obtain ⟨ts, _, hreads⟩ := Parser.program_sound hrun
  rw [List.range_eq_range']
  exact hreads.consecutive

theorem nodeIds_nodup_of_parse {source : String} {p : Program} (h : parse source = .ok p) :
    (nodeIds p.visits).Nodup := by
  rw [p.nodeIds_perm.nodup_iff, ids_of_parse h]
  exact List.nodup_range

end Demitasse
