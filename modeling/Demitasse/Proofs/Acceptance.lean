import Demitasse.Proofs.Reading
import Demitasse.Proofs.Shape

/-! Parsers that succeed, and the expressions among what they read: an expression of the grammar is read off
its tokens, up to the nodes, where a token follows that does not continue it. -/

namespace Demitasse

namespace Cursor

variable {c : Cursor} {t : Token} {ts : List Token}

theorem token?_eq (c : Cursor) (k : Nat) : c.token? k = c.tokens[k]? := by
  rw [token?, tokens, List.getElem?_map]

theorem tokens_advance (h : c.tokens = t :: ts) : c.advance.tokens = ts := by
  obtain ⟨rest, last, nextId⟩ := c
  cases rest with
  | nil => cases h
  | cons lexeme rest => exact (List.cons.inj h).2

theorem peek?_of_tokens (h : c.tokens = t :: ts) : c.peek? = some t := by
  rw [peek?_eq, h, List.head?_cons]

theorem atEnd_iff : c.atEnd = true ↔ c.tokens = [] := by
  simp [atEnd, tokens]

end Cursor

namespace Parser

variable {α β : Type} {c : Cursor} {P : α → Prop} {Q : β → Prop} {t : Token} {ts tl : List Token}

theorem run_require (cause : SyntaxFault) (hc : c.tokens = t :: ts) :
    (require t cause).run c = .ok () c.advance := by
  have hsees : c.sees t = true := Cursor.sees_iff.mpr (Cursor.peek?_of_tokens hc)
  rw [require, run_get_bind, if_pos hsees]
  rfl

theorem run_identifier {name : String} (hc : c.tokens = .word name :: ts) (hname : IsName name) :
    identifier.run c = .ok name c.advance := by
  have hid : (Token.word name).isIdentifier = true := isIdentifier_word.mpr hname
  rw [identifier, run_peek?_bind, Cursor.peek?_of_tokens hc]
  dsimp only
  rw [if_pos hid]
  rfl

theorem run_bind_of_ok {p : Parser α} {f : α → Parser β} {a : α} {c' : Cursor} (h : p.run c = .ok a c') :
    (p >>= f).run c = (f a).run c' := by
  rw [EStateM.run_bind, h]

/-- From `c` the parser reads a value with property `P`, and leaves the tokens `tl`. -/
def Yields (p : Parser α) (c : Cursor) (P : α → Prop) (tl : List Token) : Prop :=
  ∃ a c', p.run c = .ok a c' ∧ P a ∧ c'.tokens = tl

namespace Yields

theorem pure {a : α} (ha : P a) (hc : c.tokens = tl) : (pure a : Parser α).Yields c P tl :=
  ⟨a, c, rfl, ha, hc⟩

theorem bind {p : Parser α} {f : α → Parser β} (hp : p.Yields c P ts)
    (hf : ∀ a c', P a → c'.tokens = ts → (f a).Yields c' Q tl) : (p >>= f).Yields c Q tl := by
  obtain ⟨a, c₁, hrun, ha, hc₁⟩ := hp
  obtain ⟨b, c₂, hrun', hb⟩ := hf a c₁ ha hc₁
  exact ⟨b, c₂, (run_bind_of_ok hrun).trans hrun', hb⟩

theorem get {f : Cursor → Parser β} (h : (f c).Yields c Q tl) : (get >>= f).Yields c Q tl :=
  h

theorem here {f : Span → Parser β} (h : (f c.here).Yields c Q tl) : (here >>= f).Yields c Q tl :=
  h

theorem peek? {f : Option Token → Parser β} (hc : c.tokens = t :: ts) (h : (f (some t)).Yields c Q tl) :
    (peek? >>= f).Yields c Q tl := by
  rw [← Cursor.peek?_of_tokens hc] at h
  exact h

theorem advance {f : Unit → Parser β} (hc : c.tokens = t :: ts)
    (h : ∀ c', c'.tokens = ts → (f ()).Yields c' Q tl) : (advance >>= f).Yields c Q tl :=
  h c.advance (Cursor.tokens_advance hc)

theorem accept {f : Bool → Parser β} (hc : c.tokens = t :: ts)
    (h : ∀ c', c'.tokens = ts → (f true).Yields c' Q tl) : (accept t >>= f).Yields c Q tl := by
  obtain ⟨b, c', hrun, hb⟩ := h c.advance (Cursor.tokens_advance hc)
  exact ⟨b, c', (run_bind_of_ok (accept_of_sees (Cursor.peek?_of_tokens hc))).trans hrun, hb⟩

theorem decline {f : Bool → Parser β} (hc : c.tokens.head? ≠ some t) (h : (f false).Yields c Q tl) :
    (Parser.accept t >>= f).Yields c Q tl := by
  obtain ⟨b, c', hrun, hb⟩ := h
  rw [← Cursor.peek?_eq] at hc
  exact ⟨b, c', (run_bind_of_ok (accept_of_not_sees hc)).trans hrun, hb⟩

theorem require {cause : SyntaxFault} {f : Unit → Parser β} (hc : c.tokens = t :: ts)
    (h : ∀ c', c'.tokens = ts → (f ()).Yields c' Q tl) : (require t cause >>= f).Yields c Q tl := by
  obtain ⟨b, c', hrun, hb⟩ := h c.advance (Cursor.tokens_advance hc)
  exact ⟨b, c', (run_bind_of_ok (run_require cause hc)).trans hrun, hb⟩

theorem identifier {name : String} {f : String → Parser β} (hc : c.tokens = .word name :: ts)
    (hname : IsName name) (h : ∀ c', c'.tokens = ts → (f name).Yields c' Q tl) :
    (identifier >>= f).Yields c Q tl := by
  obtain ⟨b, c', hrun, hb⟩ := h c.advance (Cursor.tokens_advance hc)
  exact ⟨b, c', (run_bind_of_ok (run_identifier hc hname)).trans hrun, hb⟩

theorem mark {start : Span} {f : Node → Parser β} (hc : c.tokens = ts)
    (h : ∀ node c', c'.tokens = ts → (f node).Yields c' Q tl) : (mark start >>= f).Yields c Q tl :=
  h _ _ hc

end Yields

end Parser

/-- There is a first token, and it is not `stop`. -/
def HeadNe (stop : Token) (ts : List Token) : Prop :=
  ∃ t us, ts = t :: us ∧ t ≠ stop

theorem HeadNe.append {stop : Token} {ts : List Token} (h : HeadNe stop ts) (us : List Token) :
    HeadNe stop (ts ++ us) := by
  obtain ⟨t, ts, rfl, hne⟩ := h
  exact ⟨t, ts ++ us, rfl, hne⟩

theorem HeadNe.ne_nil {stop : Token} {ts : List Token} (h : HeadNe stop ts) : ts ≠ [] := by
  obtain ⟨t, us, rfl, -⟩ := h
  exact List.cons_ne_nil t us

theorem HeadNe.append_ne_cons {stop : Token} {ts : List Token} (h : HeadNe stop ts) (us vs : List Token) :
    ts ++ us ≠ stop :: vs := by
  obtain ⟨t, ts, rfl, hne⟩ := h
  exact fun heq => hne (List.cons.inj heq).1

theorem HeadNe.not_sees {stop : Token} {c : Cursor} (h : HeadNe stop c.tokens) :
    ¬ c.sees stop = true := by
  obtain ⟨t, us, hc, hne⟩ := h
  rw [Cursor.sees_iff, Cursor.peek?_of_tokens hc, Option.some.injEq]
  exact hne

section
variable {α : Type} {D D' : List Token → α → Prop} {ts : List Token} {as : List α}

theorem Many.imp_of_length (h : Many D ts as) (himp : ∀ us a, us.length ≤ ts.length → D us a → D' us a) :
    Many D' ts as := by
  induction h with
  | nil => exact .nil
  | cons ha _ ih =>
      refine .cons (himp _ _ (by simp) ha) (ih fun us a hle => himp us a ?_)
      rw [List.length_append]
      omega

theorem Many.length_le (h : Many D ts as) (hne : ∀ us a, D us a → us ≠ []) : as.length ≤ ts.length := by
  induction h with
  | nil => exact Nat.le_refl _
  | cons ha _ ih =>
      have hpos := List.length_pos_iff.mpr (hne _ _ ha)
      rw [List.length_append, List.length_cons]
      omega

theorem Separated.imp_of_length (h : Separated D ts as)
    (himp : ∀ us a, us.length ≤ ts.length → D us a → D' us a) : Separated D' ts as := by
  induction h with
  | nil => exact .nil
  | one ha => exact .one (himp _ _ (Nat.le_refl _) ha)
  | cons ha _ ih =>
      refine .cons (himp _ _ (by simp) ha) (ih fun us a hle => himp us a ?_)
      rw [List.length_append, List.length_cons]
      omega

theorem Separated.length_le (h : Separated D ts as) (hne : ∀ us a, D us a → us ≠ []) :
    as.length ≤ ts.length := by
  induction h with
  | nil => exact Nat.le_refl _
  | one ha => exact List.length_pos_iff.mpr (hne _ _ ha)
  | cons ha _ ih =>
      simp only [List.length_append, List.length_cons] at ih ⊢
      omega

theorem Separated.headNe {stop : Token} (h : Separated D ts as) (hne : as ≠ [])
    (hhead : ∀ us a, D us a → HeadNe stop us) : HeadNe stop ts := by
  cases h with
  | nil => exact absurd rfl hne
  | one ha => exact hhead _ _ ha
  | cons ha _ => exact (hhead _ _ ha).append _

end

namespace Parser

section
variable {α β : Type} {item : Parser α} {shape : α → β} {c : Cursor} {ts tl : List Token} {as : List α}

/-- `item` reads `a` off `ts`, whatever follows. -/
def Reads (item : Parser α) (shape : α → β) (ts : List Token) (a : α) : Prop :=
  ∀ ⦃c tl⦄, c.tokens = ts ++ tl → item.Yields c (fun a' => shape a' = shape a) tl

theorem many_yields {more : Cursor → Bool}
    (h : Many (fun ts a => item.Reads shape ts a ∧ ∀ c tl, c.tokens = ts ++ tl → more c = true) ts as)
    (hend : ∀ c, c.tokens = tl → more c = false) {bound : Nat} (hbound : as.length ≤ bound)
    (hc : c.tokens = ts ++ tl) :
    (many more item bound).Yields c (fun as' => as'.map shape = as.map shape) tl := by
  induction h generalizing c bound with
  | nil =>
      cases bound with
      | zero => exact .pure rfl hc
      | succ bound =>
          refine .get ?_
          rw [if_neg (by simp [hend c hc])]
          exact .pure rfl hc
  | cons ha _ ih =>
      obtain ⟨bound, rfl⟩ : ∃ b, bound = b + 1 := Nat.exists_eq_add_one.mpr (by simp at hbound; omega)
      rw [List.append_assoc] at hc
      refine .get ?_
      rw [if_pos (ha.2 c _ hc)]
      refine (ha.1 hc).bind fun a' c₁ ha' hc₁ => ?_
      refine (ih (Nat.le_of_succ_le_succ hbound) hc₁).bind fun as' c₂ has' hc₂ => ?_
      exact .pure (congrArg₂ List.cons ha' has') hc₂

theorem manyUntil_yields {stop : Token} {unfinished : SyntaxFault}
    (h : Many (fun ts a => item.Reads shape ts a ∧ HeadNe stop ts) ts as)
    {bound : Nat} (hbound : as.length < bound) (hc : c.tokens = ts ++ stop :: tl) :
    (manyUntil stop unfinished item bound).Yields c (fun as' => as'.map shape = as.map shape) (stop :: tl) := by
  induction h generalizing c bound with
  | nil =>
      obtain ⟨bound, rfl⟩ : ∃ b, bound = b + 1 := Nat.exists_eq_add_one.mpr (by omega)
      refine .get ?_
      rw [if_pos (Cursor.sees_iff.mpr (Cursor.peek?_of_tokens hc))]
      exact .pure rfl hc
  | cons ha _ ih =>
      obtain ⟨bound, rfl⟩ : ∃ b, bound = b + 1 := Nat.exists_eq_add_one.mpr (by omega)
      rw [List.append_assoc] at hc
      have hhead : HeadNe stop c.tokens := hc ▸ ha.2.append _
      have hmore : ¬ c.atEnd = true := fun hend => hhead.ne_nil (Cursor.atEnd_iff.mp hend)
      refine .get ?_
      rw [if_neg hhead.not_sees, if_neg hmore]
      refine (ha.1 hc).bind fun a' c₁ ha' hc₁ => ?_
      refine (ih (Nat.lt_of_succ_lt_succ hbound) hc₁).bind fun as' c₂ has' hc₂ => ?_
      exact .pure (congrArg₂ List.cons ha' has') hc₂

/-- `item` reads `a` off `ts` in a list with commas in parentheses. -/
def ReadsArgument (item : Parser α) (shape : α → β) (ts : List Token) (a : α) : Prop :=
  ∀ ⦃c t tl⦄, c.tokens = ts ++ t :: tl → t = .comma ∨ t = .rparen →
    item.Yields c (fun a' => shape a' = shape a) (t :: tl)

theorem separated_yields (h : Separated (item.ReadsArgument shape) ts as) (hne : as ≠ [])
    {bound : Nat} (hbound : as.length ≤ bound + 1) (hc : c.tokens = ts ++ .rparen :: tl) :
    (separated item bound).Yields c (fun as' => as'.map shape = as.map shape) (.rparen :: tl) := by
  induction h generalizing c bound with
  | nil => exact absurd rfl hne
  | one ha =>
      cases bound with
      | zero =>
          refine (ha hc (Or.inr rfl)).bind fun a' c₁ ha' hc₁ => ?_
          exact .pure (congrArg (· :: []) ha') hc₁
      | succ bound =>
          refine (ha hc (Or.inr rfl)).bind fun a' c₁ ha' hc₁ => ?_
          refine .decline (by simp [hc₁]) ?_
          exact .pure (congrArg (· :: []) ha') hc₁
  | cons ha _ ih =>
      obtain ⟨bound, rfl⟩ : ∃ b, bound = b + 1 := Nat.exists_eq_add_one.mpr (by simp at hbound; omega)
      rw [List.append_assoc, List.cons_append] at hc
      refine (ha hc (Or.inl rfl)).bind fun a' c₁ ha' hc₁ => ?_
      refine .accept hc₁ fun c₂ hc₂ => ?_
      refine (ih (List.cons_ne_nil _ _) (Nat.le_of_succ_le_succ hbound) hc₂).bind fun as' c₃ has' hc₃ => ?_
      exact .pure (congrArg₂ List.cons ha' has') hc₃

theorem parenthesised_yields
    (h : Separated (fun ts a => item.ReadsArgument shape ts a ∧ HeadNe .rparen ts) ts as)
    {bound : Nat} (hbound : ts.length ≤ bound) (hc : c.tokens = .lparen :: (ts ++ .rparen :: tl)) :
    (parenthesised item bound).Yields c (fun as' => as'.map shape = as.map shape) tl := by
  have hlen : as.length ≤ ts.length := h.length_le fun us a ha => ha.2.ne_nil
  refine .require hc fun c₁ hc₁ => .get ?_
  dsimp only
  cases as with
  | nil =>
      cases h
      rw [if_pos (Cursor.sees_iff.mpr (Cursor.peek?_of_tokens hc₁))]
      exact .require hc₁ fun c₂ hc₂ => .pure rfl hc₂
  | cons a as =>
      have hhead : HeadNe .rparen c₁.tokens :=
        hc₁ ▸ (h.headNe (List.cons_ne_nil _ _) fun us a ha => ha.2).append _
      rw [if_neg hhead.not_sees]
      refine (separated_yields (h.imp_of_length fun us a _ ha => ha.1) (List.cons_ne_nil _ _) (by omega)
        hc₁).bind fun as' c₂ has' hc₂ => ?_
      exact .require hc₂ fun c₃ hc₃ => .pure has' hc₃

end

end Parser

/-- How loosely the parts of an expression are bound; a negation binds as tightly as a suffix. -/
def Level.rank : Level → Nat
  | .primary => 0
  | .suffixed | .negation => 1
  | .product => 2
  | .sum => 3
  | .comparison => 4
  | .conjunction => 5

/-- The tightest level at which a token continues an expression. An opening parenthesis continues the name
of a method, which without it may be a length. -/
def Token.continues? : Token → Option Level
  | .lparen => some .primary
  | .lbracket | .dot => some .suffixed
  | .star => some .product
  | .plus | .minus => some .sum
  | .less => some .comparison
  | .andAnd => some .conjunction
  | _ => none

/-- Expressions of a level end where `tl` begins. -/
def Level.Stops (lvl : Level) (tl : List Token) : Prop :=
  ∀ t l, tl.head? = some t → t.continues? = some l → lvl.rank < l.rank

namespace Level

variable {lvl : Level} {t : Token} {tl : List Token}

theorem rank_inner_le (lvl : Level) : lvl.inner.rank ≤ lvl.rank := by
  cases lvl <;> decide

theorem rank_inner_lt {op : BinOp} (h : op.level = lvl) : lvl.inner.rank < lvl.rank := by
  subst h
  cases op <;> decide

theorem Stops.inner (h : lvl.Stops tl) : lvl.inner.Stops tl :=
  fun t l ht hl => Nat.lt_of_le_of_lt lvl.rank_inner_le (h t l ht hl)

theorem stops_of_continues? {l : Level} (h : t.continues? = some l) (hlt : lvl.rank < l.rank) :
    lvl.Stops (t :: tl) := by
  intro t' l' ht hl
  cases ht
  rw [h] at hl
  cases hl
  exact hlt

/-- A token that continues no expression. -/
theorem stops_of_none (h : t.continues? = none) : lvl.Stops (t :: tl) := by
  intro t' l ht hl
  cases ht
  rw [h] at hl
  cases hl

theorem Stops.operator_eq_none (h : lvl.Stops tl) : tl.head?.bind lvl.operator = none := by
  rw [Option.bind_eq_none_iff]
  intro t ht
  cases hop : lvl.operator t with
  | none => rfl
  | some op =>
      obtain ⟨rfl, rfl⟩ := operator_eq_some.mp hop
      have hlt := h _ op.level ht (by cases op <;> rfl)
      exact absurd hlt (Nat.lt_irrefl _)

theorem continues?_token (op : BinOp) : op.token.continues? = some op.level := by
  cases op <;> rfl

end Level

theorem Token.word_ne_ofKeyword {name : String} (h : IsName name) (k : Keyword) :
    Token.word name ≠ .ofKeyword k := by
  intro heq
  have hname : name = k.spelling := Token.word.inj heq
  rw [isName_iff, hname] at h
  cases k <;> cases h

/-- An expression starts with a token that closes nothing, and only a negation with its sign. -/
theorem IsExpr.headNe {lvl : Level} {ts : List Token} {e : Expr} (h : IsExpr lvl ts e) :
    HeadNe .rparen ts ∧ (lvl.inner = .primary → HeadNe .bang ts) := by
  have hword : ∀ text us, HeadNe .rparen (.word text :: us) ∧
      (Level.primary.inner = .primary → HeadNe .bang (.word text :: us)) :=
    fun text us => ⟨⟨_, _, rfl, nofun⟩, fun _ => ⟨_, _, rfl, nofun⟩⟩
  induction h using IsExpr.induct with
  | lift hne h ih => exact ⟨ih.1, fun hlvl => ih.2 (congrArg Level.inner hlvl)⟩
  | @binary node lvl op ts us left right hop hl hr ihl ihr =>
      refine ⟨ihl.1.append _, fun hlvl => ?_⟩
      subst hop
      cases op <;> cases hlvl
  | not node h ih => exact ⟨⟨_, _, rfl, nofun⟩, nofun⟩
  | element node ha hi iha ihi => exact ⟨iha.1.append _, fun hlvl => (iha.2 hlvl).append _⟩
  | length node h ih => exact ⟨ih.1.append _, fun hlvl => (ih.2 hlvl).append _⟩
  | call node ho hm hargs iho ihargs => exact ⟨iho.1.append _, fun hlvl => (iho.2 hlvl).append _⟩
  | int node h => exact ⟨⟨_, _, rfl, nofun⟩, fun _ => ⟨_, _, rfl, nofun⟩⟩
  | bool node value => exact hword _ _
  | var node h => exact hword _ _
  | this node => exact hword _ _
  | newArray node h ih => exact hword _ _
  | newObject node h => exact hword _ _
  | paren h ih => exact ⟨⟨_, _, rfl, nofun⟩, fun _ => ⟨_, _, rfl, nofun⟩⟩

/-! ### Expressions -/

namespace Parser

/-- The parser of a level, with expressions of at most `n` tokens inside and at most `k` negations in front. -/
def atLevel (n k : Nat) : Level → Parser Expr
  | .primary => primary (exprWithin n)
  | .suffixed => suffixed (exprWithin n) n
  | .negation => negation (suffixed (exprWithin n) n) k
  | .product => leftAssoc productOp n (atLevel n (n + 1) .negation)
  | .sum => leftAssoc sumOp n (atLevel n (n + 1) .product)
  | .comparison => leftAssoc comparisonOp n (atLevel n (n + 1) .sum)
  | .conjunction => leftAssoc conjunctionOp n (atLevel n (n + 1) .comparison)
termination_by lvl => lvl.rank
decreasing_by all_goals decide

/-- What the parser of a level does behind an expression of that level. -/
def resume (n : Nat) (start : Span) (lvl : Level) (bound : Nat) (e : Expr) : Parser Expr :=
  match lvl with
  | .primary | .negation => return e
  | .suffixed => suffixes (exprWithin n) start bound e
  | .product | .sum | .comparison | .conjunction =>
    chain lvl.operator (atLevel n (n + 1) lvl.inner) bound e

variable {n k : Nat} {c : Cursor} {lvl : Level} {e : Expr} {ts tl : List Token}

theorem exprWithin_succ (n k : Nat) : exprWithin (n + 1) = atLevel n k .conjunction := by
  simp only [exprWithin, atLevel]

theorem atLevel_level (n k : Nat) (op : BinOp) :
    atLevel n k op.level = leftAssoc op.level.operator n (atLevel n (n + 1) op.level.inner) := by
  cases op <;> rw [BinOp.level, atLevel] <;> rfl

theorem resume_level (n : Nat) (start : Span) (op : BinOp) :
    resume n start op.level = chain op.level.operator (atLevel n (n + 1) op.level.inner) := by
  cases op <;> rfl

theorem run_resume_of_stops {start : Span} {bound : Nat} (h : lvl.Stops c.tokens) :
    (resume n start lvl bound e).run c = .ok e c := by
  have hchain : (chain lvl.operator (atLevel n (n + 1) lvl.inner) bound e).run c = .ok e c := by
    cases bound with
    | zero => rfl
    | succ bound =>
        rw [chain, run_peek?_bind, Cursor.peek?_eq, h.operator_eq_none]
        rfl
  cases lvl with
  | primary | negation => rfl
  | product | sum | comparison | conjunction => exact hchain
  | suffixed =>
      cases bound with
      | zero => rfl
      | succ bound =>
          rw [resume, suffixes, run_peek?_bind, Cursor.peek?_eq]
          split
          · rename_i hhead
            exact absurd (h _ _ hhead rfl) (by decide)
          · rename_i hhead
            exact absurd (h _ _ hhead rfl) (by decide)
          · rfl

/-- After the tokens `ts` the parser of a level has read `e`, and goes on behind it. -/
def Reaches (lvl : Level) (ts : List Token) (e : Expr) : Prop :=
  ∀ ⦃n k c tl⦄, ts.length ≤ n + 1 → ts.length ≤ k → c.tokens = ts ++ tl → lvl.inner.Stops tl →
    ∃ bound e' c', (atLevel n k lvl).run c = (resume n c.here lvl bound e').run c' ∧
      n + 1 ≤ bound + ts.length ∧ e'.mapNodes Node.blank = e.mapNodes Node.blank ∧ c'.tokens = tl

theorem Reaches.atLevel (h : Reaches lvl ts e) (hn : ts.length ≤ n + 1) (hk : ts.length ≤ k)
    (hc : c.tokens = ts ++ tl) (htl : lvl.Stops tl) :
    (atLevel n k lvl).Yields c (fun e' => e'.mapNodes Node.blank = e.mapNodes Node.blank) tl := by
  obtain ⟨bound, e', c', hrun, -, he', hc'⟩ := h hn hk hc htl.inner
  rw [← hc'] at htl
  exact ⟨e', c', hrun.trans (run_resume_of_stops htl), he', hc'⟩

theorem Reaches.exprWithin (h : Reaches .conjunction ts e) (hne : ts ≠ []) (hn : ts.length ≤ n)
    (hc : c.tokens = ts ++ tl) (htl : Level.conjunction.Stops tl) :
    (exprWithin n).Yields c (fun e' => e'.mapNodes Node.blank = e.mapNodes Node.blank) tl := by
  have hpos := List.length_pos_iff.mpr hne
  obtain ⟨n, rfl⟩ : ∃ m, n = m + 1 := Nat.exists_eq_add_one.mpr (by omega)
  rw [exprWithin_succ n (n + 1)]
  exact h.atLevel hn hn hc htl

theorem Reaches.lift (hne : lvl ≠ .primary) (hts : IsExpr lvl.inner ts e) (h : Reaches lvl.inner ts e) :
    Reaches lvl ts e := by
  intro n k c tl hn hk hc htl
  have hpos := List.length_pos_iff.mpr hts.headNe.1.ne_nil
  obtain ⟨e', c', hrun, he', hc'⟩ := h.atLevel hn hn hc htl
  have hoperator : ∀ op : BinOp, op.level = lvl →
      ∃ bound e' c', (Parser.atLevel n k lvl).run c = (resume n c.here lvl bound e').run c' ∧
        n + 1 ≤ bound + ts.length ∧ e'.mapNodes Node.blank = e.mapNodes Node.blank ∧ c'.tokens = tl := by
    rintro op rfl
    refine ⟨n, e', c', ?_, by omega, he', hc'⟩
    rw [atLevel_level, resume_level, leftAssoc, run_bind_of_ok hrun]
  cases lvl with
  | primary => exact absurd rfl hne
  | conjunction => exact hoperator .and rfl
  | comparison => exact hoperator .less rfl
  | sum => exact hoperator .add rfl
  | product => exact hoperator .mul rfl
  | suffixed =>
      refine ⟨n, e', c', ?_, by omega, he', hc'⟩
      rw [Level.inner, Parser.atLevel] at hrun
      rw [Parser.atLevel, suffixed, run_here_bind, run_bind_of_ok hrun]
      rfl
  | negation =>
      refine ⟨n + 1, e', c', ?_, by omega, he', hc'⟩
      rw [Level.inner, Parser.atLevel] at hrun
      rw [Parser.atLevel]
      cases k with
      | zero => exact hrun
      | succ k =>
          have hhead : HeadNe .bang c.tokens := hc ▸ (hts.headNe.2 rfl).append tl
          have hpeek : c.peek? ≠ some .bang := fun hp => hhead.not_sees (Cursor.sees_iff.mpr hp)
          rw [negation, run_here_bind, run_bind_of_ok (accept_of_not_sees hpeek)]
          exact hrun

theorem Reaches.binary (node : Node) {op : BinOp} {us : List Token} {left right : Expr}
    (hleft : Reaches op.level ts left) (hright : Reaches op.level.inner us right) :
    Reaches op.level (ts ++ op.token :: us) (.binary node op left right) := by
  intro n k c tl hn hk hc htl
  simp only [List.length_append, List.length_cons] at hn hk ⊢
  rw [List.append_assoc, List.cons_append] at hc
  have hop : op.level.inner.Stops (op.token :: (us ++ tl)) :=
    Level.stops_of_continues? (Level.continues?_token op) (Level.rank_inner_lt rfl)
  obtain ⟨bound, left', c₁, hrun, hbound, hleft', hc₁⟩ := hleft (n := n) (k := k) (by omega) (by omega) hc hop
  obtain ⟨bound, rfl⟩ : ∃ b, bound = b + 1 := Nat.exists_eq_add_one.mpr (by omega)
  obtain ⟨right', c₂, hrun', hright', hc₂⟩ :=
    hright.atLevel (n := n) (k := n + 1) (by omega) (by omega) (Cursor.tokens_advance hc₁) htl
  refine ⟨bound, .binary ⟨c₂.nextId, left'.span.merge c₂.last⟩ op left' right',
    { c₂ with nextId := c₂.nextId + 1 }, ?_, by omega, ?_, hc₂⟩
  · have hpeek : c₁.peek?.bind op.level.operator = some op := by
      rw [Cursor.peek?_of_tokens hc₁]
      exact Level.operator_eq_some.mpr ⟨rfl, rfl⟩
    rw [hrun, resume_level, chain, run_peek?_bind, hpeek, run_advance_bind, run_bind_of_ok hrun']
    rfl
  · rw [Expr.mapNodes, Expr.mapNodes, hleft', hright']
    rfl

theorem Reaches.not (node : Node) (h : Reaches .negation ts e) :
    Reaches .negation (.bang :: ts) (.not node e) := by
  intro n k c tl hn hk hc htl
  rw [List.length_cons] at hn hk ⊢
  obtain ⟨k, rfl⟩ : ∃ m, k = m + 1 := Nat.exists_eq_add_one.mpr (by omega)
  obtain ⟨e', c₁, hrun, he', hc₁⟩ :=
    h.atLevel (n := n) (k := k) (by omega) (by omega) (Cursor.tokens_advance hc) htl
  rw [Parser.atLevel] at hrun
  refine ⟨n, .not ⟨c₁.nextId, c.here.merge c₁.last⟩ e', { c₁ with nextId := c₁.nextId + 1 }, ?_, by omega,
    ?_, hc₁⟩
  · rw [Parser.atLevel, negation, run_here_bind,
      run_bind_of_ok (accept_of_sees (Cursor.peek?_of_tokens hc)), if_pos rfl, run_bind_of_ok hrun]
    rfl
  · rw [Expr.mapNodes, Expr.mapNodes, he']
    rfl

/-- One suffix more. -/
theorem Reaches.suffix {us : List Token} {whole : Expr} (h : Reaches .suffixed ts e) {t : Token}
    (ht : t.continues? = some .suffixed)
    (hstep : ∀ ⦃n bound c tl start e'⦄, us.length ≤ n → us.length ≤ bound → c.tokens = t :: (us ++ tl) →
      Level.primary.Stops tl → e'.mapNodes Node.blank = e.mapNodes Node.blank →
      ∃ whole' c', (suffixes (Parser.exprWithin n) start (bound + 1) e').run c =
          (suffixes (Parser.exprWithin n) start bound whole').run c' ∧
        whole'.mapNodes Node.blank = whole.mapNodes Node.blank ∧ c'.tokens = tl) :
    Reaches .suffixed (ts ++ t :: us) whole := by
  intro n k c tl hn hk hc htl
  rw [List.length_append, List.length_cons] at hn hk ⊢
  rw [List.append_assoc, List.cons_append] at hc
  obtain ⟨bound, e', c₁, hrun, hbound, he', hc₁⟩ := h (n := n) (k := k) (by omega) (by omega) hc
    (Level.stops_of_continues? ht (by decide))
  obtain ⟨bound, rfl⟩ : ∃ b, bound = b + 1 := Nat.exists_eq_add_one.mpr (by omega)
  obtain ⟨whole', c₂, hrun', hwhole', hc₂⟩ := hstep (n := n) (by omega)
    (show us.length ≤ bound by omega) hc₁ htl he'
  exact ⟨bound, whole', c₂, hrun.trans hrun', by omega, hwhole', hc₂⟩

theorem Reaches.element (node : Node) {us : List Token} {array index : Expr}
    (harray : Reaches .suffixed ts array) (hindex : Reaches .conjunction us index) (hne : us ≠ []) :
    Reaches .suffixed (ts ++ .lbracket :: (us ++ [.rbracket])) (.element node array index) := by
  refine harray.suffix rfl fun n bound c tl start array' hn hbound hc htl harray' => ?_
  simp only [List.length_append, List.append_assoc, List.cons_append, List.nil_append] at hn hc
  obtain ⟨index', c₁, hrun, hindex', hc₁⟩ := hindex.exprWithin (n := n) hne (by omega)
    (Cursor.tokens_advance hc) (Level.stops_of_none rfl)
  refine ⟨.element ⟨c₁.advance.nextId, start.merge c₁.advance.last⟩ array' index',
    { c₁.advance with nextId := c₁.advance.nextId + 1 }, ?_, ?_, Cursor.tokens_advance hc₁⟩
  · rw [suffixes, run_peek?_bind, Cursor.peek?_of_tokens hc]
    dsimp only
    rw [run_advance_bind, run_bind_of_ok hrun, expect, run_bind_of_ok (run_require _ hc₁)]
    rfl
  · rw [Expr.mapNodes, Expr.mapNodes, harray', hindex']
    rfl

theorem Reaches.length (node : Node) {array : Expr} (h : Reaches .suffixed ts array) :
    Reaches .suffixed (ts ++ [.dot, .word "length"]) (.length node array) := by
  refine h.suffix rfl fun n bound c tl start array' _ _ hc htl harray' => ?_
  have hc₁ := Cursor.tokens_advance hc
  have hlength : seesLength c.advance = true := by
    have hword : c.advance.sees (.word "length") = true :=
      Cursor.sees_iff.mpr (Cursor.peek?_of_tokens hc₁)
    have hparen : c.advance.token? 1 ≠ some .lparen := by
      rw [Cursor.token?_eq, hc₁, List.cons_append, List.nil_append, List.getElem?_cons_succ,
        ← List.head?_eq_getElem?]
      exact fun hhead => absurd (htl _ _ hhead rfl) (by decide)
    simp [seesLength, hword, hparen]
  refine ⟨.length ⟨c.advance.advance.nextId, start.merge c.advance.advance.last⟩ array',
    { c.advance.advance with nextId := c.advance.advance.nextId + 1 }, ?_, ?_, Cursor.tokens_advance hc₁⟩
  · rw [suffixes, run_peek?_bind, Cursor.peek?_of_tokens hc]
    dsimp only
    rw [run_advance_bind, run_get_bind, if_pos hlength]
    rfl
  · rw [Expr.mapNodes, Expr.mapNodes, harray']
    rfl

theorem Reaches.call (node : Node) {us : List Token} {owner : Expr} {method : String} {args : List Expr}
    (howner : Reaches .suffixed ts owner) (hmethod : IsName method)
    (hargs : Separated (fun us e => Reaches .conjunction us e ∧ HeadNe .rparen us) us args) :
    Reaches .suffixed (ts ++ .dot :: .word method :: .lparen :: (us ++ [.rparen]))
      (.call node owner method args) := by
  refine howner.suffix rfl fun n bound c tl start owner' hn hbound hc _ howner' => ?_
  simp only [List.length_append, List.length_cons] at hn hbound
  simp only [List.append_assoc, List.cons_append, List.nil_append] at hc
  have hc₁ := Cursor.tokens_advance hc
  have hlength : ¬ seesLength c.advance = true := by
    have hparen : c.advance.token? 1 = some .lparen := by
      rw [Cursor.token?_eq, hc₁]
      rfl
    simp [seesLength, hparen]
  have hlist : Separated (fun us e => ReadsArgument (Parser.exprWithin n) (Expr.mapNodes Node.blank) us e ∧
      HeadNe .rparen us) us args := by
    refine hargs.imp_of_length fun us e hle h => ⟨fun c t tl hc ht => ?_, h.2⟩
    refine h.1.exprWithin h.2.ne_nil (by omega) hc (Level.stops_of_none ?_)
    rcases ht with rfl | rfl <;> rfl
  obtain ⟨args', c₂, hrun, hargs', hc₂⟩ := parenthesised_yields hlist (show us.length ≤ bound by omega)
    (Cursor.tokens_advance hc₁)
  refine ⟨.call ⟨c₂.nextId, start.merge c₂.last⟩ owner' method args', { c₂ with nextId := c₂.nextId + 1 }, ?_,
    ?_, hc₂⟩
  · rw [suffixes, run_peek?_bind, Cursor.peek?_of_tokens hc]
    dsimp only
    rw [run_advance_bind, run_get_bind, if_neg hlength, run_bind_of_ok (run_identifier hc₁ hmethod),
      run_bind_of_ok hrun]
    rfl
  · rw [Expr.mapNodes, Expr.mapNodes, Expr.mapNodesAll_eq, Expr.mapNodesAll_eq, howner', hargs']
    rfl

/-- An expression without operators and suffixes. -/
theorem Reaches.of_primary
    (h : ∀ ⦃n c tl⦄, ts.length ≤ n + 1 → c.tokens = ts ++ tl → (primary (Parser.exprWithin n)).Yields c
      (fun e' => e'.mapNodes Node.blank = e.mapNodes Node.blank) tl) : Reaches .primary ts e := by
  intro n k c tl hn hk hc _
  obtain ⟨e', c', hrun, he', hc'⟩ := h hn hc
  refine ⟨n + 1, e', c', ?_, by omega, he', hc'⟩
  rw [Parser.atLevel, hrun]
  rfl

/-- An expression of one word. -/
theorem Reaches.word {text : String} {f : Node → Expr} (node : Node)
    (hf : ∀ node node', (f node).mapNodes Node.blank = (f node').mapNodes Node.blank)
    (hword : ∀ nested start, wordExpr nested start text = (do advance; return f (← mark start))) :
    Reaches .primary [.word text] (f node) := by
  refine .of_primary fun n c tl _ hc => .here (.peek? hc ?_)
  dsimp only
  rw [hword]
  refine .advance hc fun c₁ hc₁ => .mark hc₁ fun node' c₂ hc₂ => ?_
  exact .pure (hf node' node) hc₂

theorem reaches_of_isExpr (h : IsExpr lvl ts e) : Reaches lvl ts e := by
  induction h using IsExpr.induct with
  | lift hne h ih => exact ih.lift hne h
  | binary node hop hl hr ihl ihr =>
      subst hop
      exact ihl.binary node ihr
  | not node h ih => exact ih.not node
  | element node ha hi iha ihi => exact iha.element node ihi hi.headNe.1.ne_nil
  | length node h ih => exact ih.length node
  | call node ho hm hargs iho ihargs =>
      refine iho.call node hm (ihargs.imp_of_length fun us e _ h => ?_)
      obtain ⟨he, ih⟩ := h
      exact ⟨ih, he.headNe.1⟩
  | int node h =>
      refine .of_primary fun n c tl _ hc => .here (.peek? hc (.advance hc fun c₁ hc₁ => ?_))
      rw [maxLiteral_eq, if_pos h]
      exact .mark hc₁ fun node' c₂ hc₂ => .pure rfl hc₂
  | bool node value =>
      cases value with
      | false => exact .word (f := fun node => .bool node false) node (fun _ _ => rfl) fun _ _ => rfl
      | true => exact .word (f := fun node => .bool node true) node (fun _ _ => rfl) fun _ _ => rfl
  | @var node name h =>
      refine .word (f := fun node => .var node name) node (fun _ _ => rfl) fun nested start => ?_
      rw [wordExpr, isName_iff.mp h]
  | this node => exact .word (f := .this) node (fun _ _ => rfl) fun _ _ => rfl
  | newArray node h ih =>
      refine .of_primary fun n c tl hn hc => .here (.peek? hc ?_)
      simp only [List.length_append, List.length_cons] at hn
      simp only [List.append_assoc, List.cons_append, List.nil_append] at hc
      refine .advance hc fun c₁ hc₁ => .accept hc₁ fun c₂ hc₂ => .require hc₂ fun c₃ hc₃ => ?_
      refine (ih.exprWithin h.headNe.1.ne_nil (by omega) hc₃ (Level.stops_of_none rfl)).bind
        fun size' c₄ hsize' hc₄ => ?_
      refine .require hc₄ fun c₅ hc₅ => .mark hc₅ fun node' c₆ hc₆ => .pure ?_ hc₆
      rw [Expr.mapNodes, Expr.mapNodes, hsize']
      rfl
  | newObject node h =>
      refine .of_primary fun n c tl hn hc => .here (.peek? hc ?_)
      refine .advance hc fun c₁ hc₁ => .decline ?_ (.identifier hc₁ h fun c₂ hc₂ => ?_)
      · rw [hc₁]
        exact fun heq => Token.word_ne_ofKeyword h .kwInt (Option.some.inj heq)
      · refine .require hc₂ fun c₃ hc₃ => .require hc₃ fun c₄ hc₄ => ?_
        exact .mark hc₄ fun node' c₅ hc₅ => .pure rfl hc₅
  | paren h ih =>
      refine .of_primary fun n c tl hn hc => .here (.peek? hc ?_)
      simp only [List.length_append, List.length_cons] at hn
      simp only [List.append_assoc, List.cons_append, List.nil_append] at hc
      refine .advance hc fun c₁ hc₁ => ?_
      refine (ih.exprWithin h.headNe.1.ne_nil (by omega) hc₁ (Level.stops_of_none rfl)).bind
        fun e' c₂ he' hc₂ => ?_
      exact .require hc₂ fun c₃ hc₃ => .pure he' hc₃

/-- An expression is read where a token that does not continue it follows. -/
theorem exprWithin_yields {t : Token} (h : IsExpr .conjunction ts e) (ht : t.continues? = none)
    (hn : ts.length ≤ n) (hc : c.tokens = ts ++ t :: tl) :
    (exprWithin n).Yields c (fun e' => e'.mapNodes Node.blank = e.mapNodes Node.blank) (t :: tl) :=
  (reaches_of_isExpr h).exprWithin h.headNe.1.ne_nil hn hc (Level.stops_of_none ht)

end Parser

end Demitasse
