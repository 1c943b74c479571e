import Demitasse.Proofs.AcceptedPrograms
import Demitasse.Proofs.Derivations

/-! The grammar is unambiguous: a list of tokens has one derivation tree at most. Of two derivations with the same
tokens in front of what may follow them, the first token tells which production they use, at times with the one behind
it, and so on for their parts. -/

namespace Demitasse

theorem Keyword.ofSpelling?_spelling (k : Keyword) : ofSpelling? k.spelling = some k := by
  cases k <;> rfl

theorem Token.ofKeyword_injective {k k' : Keyword} (h : Token.ofKeyword k = .ofKeyword k') : k = k' := by
  have hspelling : k.spelling = k'.spelling := Token.word.inj h
  apply Option.some.inj
  rw [← k.ofSpelling?_spelling, ← k'.ofSpelling?_spelling, hspelling]

theorem BinOp.token_injective {op op' : BinOp} (h : op.token = op'.token) : op = op' := by
  cases op <;> cases op' <;> first | rfl | cases h

/-- What may stand behind the tokens of a symbol. -/
def ExprSymbol.Ends : ExprSymbol → List Token → Prop
  | .expr lvl, tl | .operators lvl, tl => lvl.Stops tl
  | .suffixes, tl => Level.suffixed.Stops tl
  | .args, tl | .moreArgs, tl => ∃ us, tl = .rparen :: us

theorem Level.Stops.continues?_ne {lvl : Level} {t : Token} {tl : List Token} (h : lvl.Stops (t :: tl)) :
    t.continues? ≠ some lvl :=
  fun hcontinues => absurd (h t lvl rfl hcontinues) (Nat.lt_irrefl _)

namespace ExprTree

/-- The tokens of a derivation, up to where its symbol ends, are those of no other one. -/
def Determined {s : ExprSymbol} (t : ExprTree s) : Prop :=
  ∀ (u : ExprTree s) {tl tl' : List Token}, s.Ends tl → s.Ends tl' → t.tokens ++ tl = u.tokens ++ tl' →
    t = u ∧ tl = tl'

variable {lvl : Level} {tl tl' : List Token}

theorem stops_operators (h : lvl.Stops tl) : ∀ rest : ExprTree (.operators lvl), lvl.inner.Stops (rest.tokens ++ tl)
  | .noOperator => h.inner
  | .operator op hop _ _ => by
      subst hop
      exact Level.stops_of_continues? (Level.continues?_token op) (Level.rank_inner_lt rfl)

theorem stops_suffixes (h : Level.suffixed.Stops tl) : ∀ rest : ExprTree .suffixes,
    Level.primary.Stops (rest.tokens ++ tl)
  | .noSuffix => h.inner
  | .element .. | .length .. | .call .. => Level.stops_of_continues? rfl (by decide)

theorem stops_moreArgs (h : ExprSymbol.moreArgs.Ends tl) : ∀ rest : ExprTree .moreArgs,
    Level.conjunction.Stops (rest.tokens ++ tl)
  | .noMoreArg => by
      obtain ⟨us, rfl⟩ := h
      exact Level.stops_of_none rfl
  | .moreArg .. => Level.stops_of_none rfl

theorem Determined.chain {hlvl : ∃ op : BinOp, op.level = lvl} {first : ExprTree (.expr lvl.inner)}
    {rest : ExprTree (.operators lvl)} (hfirst : first.Determined) (hrest : rest.Determined) :
    (ExprTree.chain hlvl first rest).Determined := by
  intro u tl tl' h h' heq
  obtain ⟨first', rest', rfl⟩ := u.exists_chain hlvl
  rw [tokens, tokens, List.append_assoc, List.append_assoc] at heq
  obtain ⟨rfl, htail⟩ := hfirst first' (stops_operators h rest) (stops_operators h' rest') heq
  obtain ⟨rfl, rfl⟩ := hrest rest' h h' htail
  exact ⟨rfl, rfl⟩

theorem Determined.noOperator : (noOperator : ExprTree (.operators lvl)).Determined := by
  intro u tl tl' h h' heq
  cases u with
  | noOperator => exact ⟨rfl, heq⟩
  | operator op hop right rest =>
      subst hop
      rw [tokens, List.nil_append] at heq
      subst heq
      exact absurd (Level.continues?_token op) (Level.Stops.continues?_ne h)

theorem Determined.operator {op : BinOp} {hop : op.level = lvl} {right : ExprTree (.expr lvl.inner)}
    {rest : ExprTree (.operators lvl)} (hright : right.Determined) (hrest : rest.Determined) :
    (ExprTree.operator op hop right rest).Determined := by
  intro u tl tl' h h' heq
  cases u with
  | noOperator =>
      subst hop
      rw [tokens, tokens, List.nil_append] at heq
      subst heq
      exact absurd (Level.continues?_token op) (Level.Stops.continues?_ne h')
  | operator op' hop' right' rest' =>
      rw [tokens, tokens, List.cons_append, List.cons_append, List.append_assoc, List.append_assoc] at heq
      obtain ⟨htoken, hparts⟩ := List.cons.inj heq
      obtain rfl := BinOp.token_injective htoken
      obtain ⟨rfl, htail⟩ := hright right' (stops_operators h rest) (stops_operators h' rest') hparts
      obtain ⟨rfl, rfl⟩ := hrest rest' h h' htail
      exact ⟨rfl, rfl⟩

theorem not_chain (hlvl : lvl.rank ≤ 1) : ¬ ∃ op : BinOp, op.level = lvl := by
  rintro ⟨op, rfl⟩
  cases op <;> exact absurd hlvl (by decide)

theorem tokens_ne_bang (e : ExprTree (.expr .suffixed)) (us : List Token) : e.tokens ++ tl ≠ .bang :: us :=
  ((IsExpr.headNe e.shows).2 rfl).append_ne_cons tl us

theorem Determined.not {operand : ExprTree (.expr .negation)} (h : operand.Determined) : operand.not.Determined := by
  intro u tl tl' htl htl' heq
  cases u with
  | chain hlvl => exact absurd hlvl (not_chain (by decide))
  | not operand' =>
      obtain ⟨rfl, rfl⟩ := h operand' htl htl' (List.cons.inj heq).2
      exact ⟨rfl, rfl⟩
  | plain e => exact absurd heq.symm (e.tokens_ne_bang _)

theorem Determined.plain {e : ExprTree (.expr .suffixed)} (h : e.Determined) : e.plain.Determined := by
  intro u tl tl' htl htl' heq
  cases u with
  | chain hlvl => exact absurd hlvl (not_chain (by decide))
  | not operand => exact absurd heq (e.tokens_ne_bang _)
  | plain e' =>
      obtain ⟨rfl, rfl⟩ := h e' htl htl' heq
      exact ⟨rfl, rfl⟩

theorem Determined.suffixed {e : ExprTree (.expr .primary)} {rest : ExprTree .suffixes} (he : e.Determined)
    (hrest : rest.Determined) : (e.suffixed rest).Determined := by
  intro u tl tl' h h' heq
  cases u with
  | chain hlvl => exact absurd hlvl (not_chain (by decide))
  | suffixed e' rest' =>
      rw [tokens, tokens, List.append_assoc, List.append_assoc] at heq
      obtain ⟨rfl, htail⟩ := he e' (stops_suffixes h rest) (stops_suffixes h' rest') heq
      obtain ⟨rfl, rfl⟩ := hrest rest' h h' htail
      exact ⟨rfl, rfl⟩

/-- Where suffixes end there is no bracket and no dot. -/
theorem tokens_noSuffix (h : Level.suffixed.Stops tl) {u : ExprTree .suffixes} (heq : tl = u.tokens ++ tl') :
    u = .noSuffix := by
  subst heq
  cases u with
  | noSuffix => rfl
  | element | length | call => exact absurd rfl (Level.Stops.continues?_ne h)

theorem Determined.noSuffix : noSuffix.Determined := by
  intro u tl tl' h h' heq
  obtain rfl := tokens_noSuffix h heq
  exact ⟨rfl, heq⟩

theorem Determined.element {index : ExprTree (.expr .conjunction)} {rest : ExprTree .suffixes}
    (hindex : index.Determined) (hrest : rest.Determined) : (index.element rest).Determined := by
  intro u tl tl' h h' heq
  cases u with
  | noSuffix => cases tokens_noSuffix h' heq.symm
  | length | call => cases heq
  | element index' rest' =>
      simp only [tokens, List.cons_append, List.append_assoc] at heq
      obtain ⟨rfl, htail⟩ := hindex index' (Level.stops_of_none rfl) (Level.stops_of_none rfl) (List.cons.inj heq).2
      obtain ⟨rfl, rfl⟩ := hrest rest' h h' (List.cons.inj htail).2
      exact ⟨rfl, rfl⟩

/-- A length is not the start of a call. -/
theorem tokens_ne_lparen (h : Level.suffixed.Stops tl) (rest : ExprTree .suffixes) (us : List Token) :
    rest.tokens ++ tl ≠ .lparen :: us := by
  intro heq
  have hstops := stops_suffixes h rest
  rw [heq] at hstops
  exact hstops.continues?_ne rfl

theorem Determined.length {rest : ExprTree .suffixes} (hrest : rest.Determined) : rest.length.Determined := by
  intro u tl tl' h h' heq
  cases u with
  | noSuffix => cases tokens_noSuffix h' heq.symm
  | element => cases heq
  | length rest' =>
      obtain ⟨rfl, rfl⟩ := hrest rest' h h' (List.cons.inj (List.cons.inj heq).2).2
      exact ⟨rfl, rfl⟩
  | call method hmethod args rest' =>
      exact absurd (List.cons.inj (List.cons.inj heq).2).2 (tokens_ne_lparen h rest _)

theorem Determined.call {method : String} {hmethod : IsName method} {args : ExprTree .args} {rest : ExprTree .suffixes}
    (hargs : args.Determined) (hrest : rest.Determined) : (ExprTree.call method hmethod args rest).Determined := by
  intro u tl tl' h h' heq
  cases u with
  | noSuffix => cases tokens_noSuffix h' heq.symm
  | element => cases heq
  | length rest' => exact absurd (List.cons.inj (List.cons.inj heq).2).2.symm (tokens_ne_lparen h' rest' _)
  | call method' hmethod' args' rest' =>
      simp only [tokens, List.cons_append, List.append_assoc, List.cons.injEq, Token.word.injEq, true_and] at heq
      obtain ⟨rfl, hparts⟩ := heq
      obtain ⟨rfl, htail⟩ := hargs args' ⟨_, rfl⟩ ⟨_, rfl⟩ hparts
      obtain ⟨rfl, rfl⟩ := hrest rest' h h' (List.cons.inj htail).2
      exact ⟨rfl, rfl⟩

theorem tokens_ne_rparen (e : ExprTree (.expr lvl)) (us : List Token) : e.tokens ++ tl ≠ .rparen :: us :=
  (IsExpr.headNe e.shows).1.append_ne_cons tl us

theorem Determined.noArg : noArg.Determined := by
  rintro u tl tl' ⟨us, rfl⟩ h' heq
  cases u with
  | noArg => exact ⟨rfl, heq⟩
  | arg first rest =>
      rw [tokens, tokens, List.append_assoc] at heq
      exact absurd heq.symm (first.tokens_ne_rparen _)

theorem Determined.arg {first : ExprTree (.expr .conjunction)} {rest : ExprTree .moreArgs}
    (hfirst : first.Determined) (hrest : rest.Determined) : (first.arg rest).Determined := by
  intro u tl tl' h h' heq
  cases u with
  | noArg =>
      obtain ⟨us, rfl⟩ := h'
      rw [tokens, tokens, List.append_assoc] at heq
      exact absurd heq (first.tokens_ne_rparen _)
  | arg first' rest' =>
      rw [tokens, tokens, List.append_assoc, List.append_assoc] at heq
      obtain ⟨rfl, htail⟩ := hfirst first' (stops_moreArgs h rest) (stops_moreArgs h' rest') heq
      obtain ⟨rfl, rfl⟩ := hrest rest' h h' htail
      exact ⟨rfl, rfl⟩

theorem Determined.noMoreArg : noMoreArg.Determined := by
  rintro u tl tl' ⟨us, rfl⟩ h' heq
  cases u with
  | noMoreArg => exact ⟨rfl, heq⟩
  | moreArg => cases heq

theorem Determined.moreArg {next : ExprTree (.expr .conjunction)} {rest : ExprTree .moreArgs}
    (hnext : next.Determined) (hrest : rest.Determined) : (next.moreArg rest).Determined := by
  intro u tl tl' h h' heq
  cases u with
  | noMoreArg =>
      obtain ⟨us, rfl⟩ := h'
      cases heq
  | moreArg next' rest' =>
      simp only [tokens, List.cons_append, List.append_assoc] at heq
      obtain ⟨rfl, htail⟩ := hnext next' (stops_moreArgs h rest) (stops_moreArgs h' rest') (List.cons.inj heq).2
      obtain ⟨rfl, rfl⟩ := hrest rest' h h' htail
      exact ⟨rfl, rfl⟩

/-- The primary expressions that start with a reserved word. -/
def StartsWith (u : ExprTree (.expr .primary)) : Keyword → Prop
  | .kwTrue => u = .bool true
  | .kwFalse => u = .bool false
  | .kwThis => u = .this
  | .kwNew => (∃ size, u = .newArray size) ∨ ∃ className hname, u = .newObject className hname
  | _ => False

theorem startsWith_of_tokens {u : ExprTree (.expr .primary)} {k : Keyword} {us : List Token}
    (heq : u.tokens ++ tl = .ofKeyword k :: us) : u.StartsWith k := by
  cases u with
  | chain hlvl => exact absurd hlvl (not_chain (by decide))
  | int | paren => cases heq
  | var name hname => exact absurd (List.cons.inj heq).1 (Token.word_ne_ofKeyword hname k)
  | bool value =>
      obtain rfl := Token.ofKeyword_injective (List.cons.inj heq).1
      cases value <;> rfl
  | this =>
      obtain rfl := Token.ofKeyword_injective (List.cons.inj heq).1
      rfl
  | newArray size =>
      obtain rfl := Token.ofKeyword_injective (List.cons.inj heq).1
      exact Or.inl ⟨size, rfl⟩
  | newObject className hname =>
      obtain rfl := Token.ofKeyword_injective (List.cons.inj heq).1
      exact Or.inr ⟨className, hname, rfl⟩

theorem Determined.int {value : Nat} {hvalue : value ≤ 2147483647} : (ExprTree.int value hvalue).Determined := by
  intro u tl tl' h h' heq
  cases u with
  | chain hlvl => exact absurd hlvl (not_chain (by decide))
  | int value' hvalue' =>
      obtain ⟨hvalue, rfl⟩ := List.cons.inj heq
      obtain rfl := Token.integer.inj hvalue
      exact ⟨rfl, rfl⟩
  | bool | var | this | newArray | newObject | paren => cases heq

theorem Determined.bool : ∀ {value : Bool}, (ExprTree.bool value).Determined
  | true => by
      intro u tl tl' h h' heq
      obtain rfl : u = .bool true := startsWith_of_tokens heq.symm
      exact ⟨rfl, (List.cons.inj heq).2⟩
  | false => by
      intro u tl tl' h h' heq
      obtain rfl : u = .bool false := startsWith_of_tokens heq.symm
      exact ⟨rfl, (List.cons.inj heq).2⟩

theorem Determined.var {name : String} {hname : IsName name} : (ExprTree.var name hname).Determined := by
  intro u tl tl' h h' heq
  cases u with
  | chain hlvl => exact absurd hlvl (not_chain (by decide))
  | var name' hname' =>
      obtain ⟨hword, rfl⟩ := List.cons.inj heq
      obtain rfl := Token.word.inj hword
      exact ⟨rfl, rfl⟩
  | bool | this | newArray | newObject => exact absurd (List.cons.inj heq).1 (Token.word_ne_ofKeyword hname _)
  | int | paren => cases heq

theorem Determined.this : this.Determined := by
  intro u tl tl' h h' heq
  obtain rfl : u = .this := startsWith_of_tokens heq.symm
  exact ⟨rfl, (List.cons.inj heq).2⟩

theorem Determined.newArray {size : ExprTree (.expr .conjunction)} (hsize : size.Determined) :
    size.newArray.Determined := by
  intro u tl tl' h h' heq
  obtain ⟨size', rfl⟩ | ⟨className, hname, rfl⟩ : u.StartsWith .kwNew := startsWith_of_tokens heq.symm
  · simp only [tokens, List.cons_append, List.append_assoc, List.cons.injEq, true_and] at heq
    obtain ⟨rfl, htail⟩ := hsize size' (Level.stops_of_none rfl) (Level.stops_of_none rfl) heq
    exact ⟨rfl, (List.cons.inj htail).2⟩
  · exact absurd (List.cons.inj (List.cons.inj heq).2).1.symm (Token.word_ne_ofKeyword hname _)

theorem Determined.newObject {className : String} {hname : IsName className} :
    (ExprTree.newObject className hname).Determined := by
  intro u tl tl' h h' heq
  obtain ⟨size, rfl⟩ | ⟨className', hname', rfl⟩ : u.StartsWith .kwNew := startsWith_of_tokens heq.symm
  · exact absurd (List.cons.inj (List.cons.inj heq).2).1 (Token.word_ne_ofKeyword hname _)
  · simp only [tokens, List.cons_append, List.nil_append, List.cons.injEq, Token.word.injEq, true_and] at heq
    obtain ⟨rfl, rfl⟩ := heq
    exact ⟨rfl, rfl⟩

theorem Determined.paren {e : ExprTree (.expr .conjunction)} (he : e.Determined) : e.paren.Determined := by
  intro u tl tl' h h' heq
  cases u with
  | chain hlvl => exact absurd hlvl (not_chain (by decide))
  | paren e' =>
      simp only [tokens, List.cons_append, List.append_assoc, List.cons.injEq, true_and] at heq
      obtain ⟨rfl, htail⟩ := he e' (Level.stops_of_none rfl) (Level.stops_of_none rfl) heq
      exact ⟨rfl, (List.cons.inj htail).2⟩
  | int | bool | var | this | newArray | newObject => cases heq

/-- Two derivations that yield the same tokens up to where their symbol ends are the same. -/
theorem determined {s : ExprSymbol} (t : ExprTree s) : t.Determined := by
  induction t with
  | chain hlvl first rest ihfirst ihrest => exact ihfirst.chain ihrest
  | noOperator => exact .noOperator
  | operator op hop right rest ihright ihrest => exact ihright.operator ihrest
  | not operand ih => exact ih.not
  | plain e ih => exact ih.plain
  | suffixed e rest ihe ihrest => exact ihe.suffixed ihrest
  | noSuffix => exact .noSuffix
  | element index rest ihindex ihrest => exact ihindex.element ihrest
  | length rest ihrest => exact ihrest.length
  | call method hmethod args rest ihargs ihrest => exact ihargs.call ihrest
  | noArg => exact .noArg
  | arg first rest ihfirst ihrest => exact ihfirst.arg ihrest
  | noMoreArg => exact .noMoreArg
  | moreArg next rest ihnext ihrest => exact ihnext.moreArg ihrest
  | int => exact .int
  | bool => exact .bool
  | var => exact .var
  | this => exact .this
  | newArray size ih => exact ih.newArray
  | newObject => exact .newObject
  | paren e ih => exact ih.paren

end ExprTree

/-! ### Statements -/

/-- What may stand behind the tokens of a symbol. -/
def StmtSymbol.Ends : StmtSymbol → List Token → Prop
  | .stmt, _ => True
  | .stmts, tl => ∃ stop us, tl = stop :: us ∧ (stop = .rbrace ∨ stop = .ofKeyword .kwReturn)

namespace StmtTree

/-- The tokens of a derivation, up to where its symbol ends, are those of no other one. -/
def Determined {s : StmtSymbol} (t : StmtTree s) : Prop :=
  ∀ (u : StmtTree s) {tl tl' : List Token}, s.Ends tl → s.Ends tl' → t.tokens ++ tl = u.tokens ++ tl' →
    t = u ∧ tl = tl'

theorem Determined.block {body : StmtTree .stmts} (hbody : body.Determined) : body.block.Determined := by
  intro u tl tl' h h' heq
  cases u with
  | block body' =>
      simp only [tokens, List.cons_append, List.append_assoc] at heq
      obtain ⟨rfl, htail⟩ := hbody body' ⟨_, _, rfl, Or.inl rfl⟩ ⟨_, _, rfl, Or.inl rfl⟩ (List.cons.inj heq).2
      exact ⟨rfl, (List.cons.inj htail).2⟩
  | ifElse | loop | print | assign | assignElement => cases heq

theorem Determined.ifElse {cond : ExprTree (.expr .conjunction)} {thenBranch elseBranch : StmtTree .stmt}
    (hthen : thenBranch.Determined) (helse : elseBranch.Determined) :
    (StmtTree.ifElse cond thenBranch elseBranch).Determined := by
  intro u tl tl' h h' heq
  cases u with
  | ifElse cond' thenBranch' elseBranch' =>
      simp only [tokens, List.cons_append, List.append_assoc, List.cons.injEq, true_and] at heq
      obtain ⟨rfl, hbranches⟩ := cond.determined cond' (Level.stops_of_none rfl) (Level.stops_of_none rfl) heq
      obtain ⟨rfl, hrest⟩ := hthen thenBranch' trivial trivial (List.cons.inj hbranches).2
      obtain ⟨rfl, rfl⟩ := helse elseBranch' trivial trivial (List.cons.inj hrest).2
      exact ⟨rfl, rfl⟩
  | loop => cases Token.ofKeyword_injective (List.cons.inj heq).1
  | assign target htarget | assignElement target htarget =>
      exact absurd (List.cons.inj heq).1.symm (Token.word_ne_ofKeyword htarget _)
  | block | print => cases heq

theorem Determined.loop {cond : ExprTree (.expr .conjunction)} {body : StmtTree .stmt} (hbody : body.Determined) :
    (StmtTree.loop cond body).Determined := by
  intro u tl tl' h h' heq
  cases u with
  | loop cond' body' =>
      simp only [tokens, List.cons_append, List.append_assoc, List.cons.injEq, true_and] at heq
      obtain ⟨rfl, htail⟩ := cond.determined cond' (Level.stops_of_none rfl) (Level.stops_of_none rfl) heq
      obtain ⟨rfl, rfl⟩ := hbody body' trivial trivial (List.cons.inj htail).2
      exact ⟨rfl, rfl⟩
  | ifElse => cases Token.ofKeyword_injective (List.cons.inj heq).1
  | assign target htarget | assignElement target htarget =>
      exact absurd (List.cons.inj heq).1.symm (Token.word_ne_ofKeyword htarget _)
  | block | print => cases heq

theorem Determined.print {arg : ExprTree (.expr .conjunction)} : (StmtTree.print arg).Determined := by
  intro u tl tl' h h' heq
  cases u with
  | print arg' =>
      simp only [tokens, List.cons_append, List.append_assoc, List.cons.injEq, true_and] at heq
      obtain ⟨rfl, htail⟩ := arg.determined arg' (Level.stops_of_none rfl) (Level.stops_of_none rfl) heq
      exact ⟨rfl, (List.cons.inj (List.cons.inj htail).2).2⟩
  | block | ifElse | loop | assign | assignElement => cases heq

theorem Determined.assign {target : String} {htarget : IsName target} {value : ExprTree (.expr .conjunction)} :
    (StmtTree.assign target htarget value).Determined := by
  intro u tl tl' h h' heq
  cases u with
  | assign target' htarget' value' =>
      simp only [tokens, List.cons_append, List.append_assoc, List.cons.injEq, Token.word.injEq, true_and] at heq
      obtain ⟨rfl, hvalue⟩ := heq
      obtain ⟨rfl, htail⟩ := value.determined value' (Level.stops_of_none rfl) (Level.stops_of_none rfl) hvalue
      exact ⟨rfl, (List.cons.inj htail).2⟩
  | assignElement => cases (List.cons.inj (List.cons.inj heq).2).1
  | ifElse | loop => exact absurd (List.cons.inj heq).1 (Token.word_ne_ofKeyword htarget _)
  | block | print => cases heq

theorem Determined.assignElement {target : String} {htarget : IsName target}
    {index value : ExprTree (.expr .conjunction)} :
    (StmtTree.assignElement target htarget index value).Determined := by
  intro u tl tl' h h' heq
  cases u with
  | assignElement target' htarget' index' value' =>
      simp only [tokens, List.cons_append, List.append_assoc, List.cons.injEq, Token.word.injEq, true_and] at heq
      obtain ⟨rfl, hparts⟩ := heq
      obtain ⟨rfl, hrest⟩ := index.determined index' (Level.stops_of_none rfl) (Level.stops_of_none rfl) hparts
      obtain ⟨rfl, htail⟩ := value.determined value' (Level.stops_of_none rfl) (Level.stops_of_none rfl)
        (List.cons.inj (List.cons.inj hrest).2).2
      exact ⟨rfl, (List.cons.inj htail).2⟩
  | assign => cases (List.cons.inj (List.cons.inj heq).2).1
  | ifElse | loop => exact absurd (List.cons.inj heq).1 (Token.word_ne_ofKeyword htarget _)
  | block | print => cases heq

/-- Where statements end none stands. -/
theorem not_ends (first : StmtTree .stmt) (us : List Token) : ¬ StmtSymbol.stmts.Ends (first.tokens ++ us) := by
  rintro ⟨stop, vs, heq, hstop⟩
  obtain ⟨hrbrace, hreturn⟩ := IsStmt.headNe first.shows
  rcases hstop with rfl | rfl
  · exact hrbrace.append_ne_cons us vs heq
  · exact hreturn.append_ne_cons us vs heq

theorem Determined.noStmt : noStmt.Determined := by
  intro u tl tl' h h' heq
  cases u with
  | noStmt => exact ⟨rfl, heq⟩
  | moreStmt first rest =>
      rw [tokens, tokens, List.nil_append, List.append_assoc] at heq
      exact absurd (heq ▸ h) (first.not_ends _)

theorem Determined.moreStmt {first : StmtTree .stmt} {rest : StmtTree .stmts} (hfirst : first.Determined)
    (hrest : rest.Determined) : (first.moreStmt rest).Determined := by
  intro u tl tl' h h' heq
  cases u with
  | noStmt =>
      rw [tokens, tokens, List.nil_append, List.append_assoc] at heq
      exact absurd (heq ▸ h') (first.not_ends _)
  | moreStmt first' rest' =>
      rw [tokens, tokens, List.append_assoc, List.append_assoc] at heq
      obtain ⟨rfl, htail⟩ := hfirst first' trivial trivial heq
      obtain ⟨rfl, rfl⟩ := hrest rest' h h' htail
      exact ⟨rfl, rfl⟩

theorem determined {s : StmtSymbol} (t : StmtTree s) : t.Determined := by
  induction t with
  | block body ih => exact ih.block
  | ifElse cond thenBranch elseBranch ihthen ihelse => exact ihthen.ifElse ihelse
  | loop cond body ih => exact ih.loop
  | print => exact .print
  | assign => exact .assign
  | assignElement => exact .assignElement
  | noStmt => exact .noStmt
  | moreStmt first rest ihfirst ihrest => exact ihfirst.moreStmt ihrest

end StmtTree

/-! ### Declarations and programs -/

/-- Trees whose tokens are those of no other one, up to where they end. -/
def Unambiguous {τ : Type} (tokens : τ → List Token) (Ends : List Token → Prop) : Prop :=
  ∀ ⦃t u : τ⦄ ⦃tl tl' : List Token⦄, Ends tl → Ends tl' → tokens t ++ tl = tokens u ++ tl' → t = u ∧ tl = tl'

/-- Items one after the other, with an end where no item starts. -/
theorem Unambiguous.many {τ : Type} {tokens : τ → List Token} {Ends : List Token → Prop}
    (h : Unambiguous tokens fun _ => True) (hends : ∀ t tl, ¬ Ends (tokens t ++ tl)) :
    Unambiguous (List.flatMap tokens) Ends := by
  intro ts us tl tl' htl htl' heq
  induction ts generalizing us with
  | nil =>
      cases us with
      | nil => exact ⟨rfl, heq⟩
      | cons u us =>
          rw [List.flatMap_nil, List.nil_append, List.flatMap_cons, List.append_assoc] at heq
          exact absurd (heq ▸ htl) (hends u _)
  | cons t ts ih =>
      cases us with
      | nil =>
          rw [List.flatMap_nil, List.nil_append, List.flatMap_cons, List.append_assoc] at heq
          exact absurd (heq ▸ htl') (hends t _)
      | cons u us =>
          rw [List.flatMap_cons, List.flatMap_cons, List.append_assoc, List.append_assoc] at heq
          obtain ⟨rfl, htail⟩ := h trivial trivial heq
          obtain ⟨rfl, rfl⟩ := ih htail
          exact ⟨rfl, rfl⟩

/-- Items with a comma between them, in parentheses. -/
theorem Unambiguous.separated {τ : Type} {tokens : τ → List Token} (h : Unambiguous tokens fun _ => True)
    (hends : ∀ t, HeadNe .rparen (tokens t)) :
    Unambiguous (separatedTokens tokens) fun tl => ∃ us, tl = .rparen :: us := by
  have hnil : ∀ {t us tl tl'}, .rparen :: tl ≠ separatedTokens tokens (t :: us) ++ tl' := by
    intro t us tl tl' heq
    rw [separatedTokens, List.append_assoc] at heq
    exact (hends t).append_ne_cons _ _ heq.symm
  have hmore : Unambiguous (List.flatMap fun t => .comma :: tokens t) fun tl => ∃ us, tl = .rparen :: us := by
    refine Unambiguous.many (fun _ _ _ _ _ _ heq => h trivial trivial (List.cons.inj heq).2) ?_
    rintro t tl ⟨us, hus⟩
    cases hus
  intro ts us tl tl' htl htl' heq
  cases ts with
  | nil =>
      obtain ⟨vs, rfl⟩ := htl
      cases us with
      | nil => exact ⟨rfl, heq⟩
      | cons u us => exact absurd heq hnil
  | cons t ts =>
      cases us with
      | nil =>
          obtain ⟨vs, rfl⟩ := htl'
          exact absurd heq.symm hnil
      | cons u us =>
          rw [separatedTokens, separatedTokens, List.append_assoc, List.append_assoc] at heq
          obtain ⟨rfl, htail⟩ := h trivial trivial heq
          obtain ⟨rfl, rfl⟩ := hmore htl htl' htail
          exact ⟨rfl, rfl⟩

theorem exists_cursor (ts : List Token) : ∃ c : Cursor, c.tokens = ts := by
  refine ⟨.start (ts.map (Lexeme.mk · .origin)), ?_⟩
  rw [Cursor.tokens, Cursor.start, List.map_map]
  exact List.map_id ts

theorem TypeTree.unambiguous : Unambiguous TypeTree.tokens fun tl => ∃ text us, tl = .word text :: us := by
  rintro t u tl tl' ⟨text, us, rfl⟩ ⟨text', us', rfl⟩ heq
  cases t with
  | int =>
      cases u with
      | int => exact ⟨rfl, (List.cons.inj heq).2⟩
      | intArray => cases (List.cons.inj (List.cons.inj heq).2).1
      | boolean => cases Token.ofKeyword_injective (List.cons.inj heq).1
      | object _ hname => exact absurd (List.cons.inj heq).1.symm (Token.word_ne_ofKeyword hname _)
  | intArray =>
      cases u with
      | int => cases (List.cons.inj (List.cons.inj heq).2).1
      | intArray => exact ⟨rfl, (List.cons.inj (List.cons.inj (List.cons.inj heq).2).2).2⟩
      | boolean => cases Token.ofKeyword_injective (List.cons.inj heq).1
      | object _ hname => exact absurd (List.cons.inj heq).1.symm (Token.word_ne_ofKeyword hname _)
  | boolean =>
      cases u with
      | int | intArray => cases Token.ofKeyword_injective (List.cons.inj heq).1
      | boolean => exact ⟨rfl, (List.cons.inj heq).2⟩
      | object _ hname => exact absurd (List.cons.inj heq).1.symm (Token.word_ne_ofKeyword hname _)
  | object className hname =>
      cases u with
      | int | intArray | boolean => exact absurd (List.cons.inj heq).1 (Token.word_ne_ofKeyword hname _)
      | object className' hname' =>
          obtain ⟨hword, htail⟩ := List.cons.inj heq
          obtain rfl := Token.word.inj hword
          exact ⟨rfl, htail⟩

namespace VarTree

theorem unambiguous : Unambiguous tokens fun _ => True := by
  rintro ⟨type, name, hname⟩ ⟨type', name', hname'⟩ tl tl' - - heq
  rw [tokens, tokens, List.append_assoc, List.append_assoc] at heq
  obtain ⟨rfl, htail⟩ := TypeTree.unambiguous ⟨_, _, rfl⟩ ⟨_, _, rfl⟩ heq
  obtain ⟨hword, rfl⟩ := List.cons.inj htail
  obtain rfl := Token.word.inj hword
  exact ⟨rfl, rfl⟩

theorem declaration_append (v : VarTree) (tl : List Token) : v.declaration ++ tl = v.tokens ++ .semicolon :: tl := by
  rw [declaration, tokens, List.append_assoc, List.append_assoc]
  rfl

theorem declaration_unambiguous : Unambiguous declaration fun _ => True := by
  intro t u tl tl' _ _ heq
  rw [declaration_append, declaration_append] at heq
  obtain ⟨rfl, htail⟩ := unambiguous trivial trivial heq
  exact ⟨rfl, (List.cons.inj htail).2⟩

theorem formals_unambiguous : Unambiguous (separatedTokens tokens) fun tl => ∃ us, tl = .rparen :: us :=
  unambiguous.separated fun v => v.isFormal.headNe

/-- Variables are declared up to where none starts. -/
theorem declarations_unambiguous :
    Unambiguous (List.flatMap declaration) fun tl => ∀ (v : VarTree) us, v.declaration ++ us ≠ tl :=
  declaration_unambiguous.many fun v us h => h v us rfl

/-- Before the statements of a method and its result no variable declaration stands. -/
theorem declaration_ne_body (v : VarTree) (body : StmtTree .stmts) (us tl : List Token) :
    v.declaration ++ us ≠ body.tokens ++ .ofKeyword .kwReturn :: tl := by
  intro heq
  obtain ⟨c, hc⟩ := exists_cursor (v.declaration ++ us)
  have hstarts : c.startsVarDecl = true := v.isVarDecl.startsVarDecl hc
  rw [Parser.locals_end body.shows (hc.trans heq)] at hstarts
  cases hstarts

/-- Before the methods of a class and its end no field stands. -/
theorem declaration_ne_methods (v : VarTree) (methods : List MethodTree) (us tl : List Token) :
    v.declaration ++ us ≠ methods.flatMap MethodTree.tokens ++ .rbrace :: tl := by
  intro heq
  obtain ⟨c, hc⟩ := exists_cursor (v.declaration ++ us)
  have hstarts : c.startsField = true := v.isVarDecl.startsField hc
  rw [Parser.fields_end (many_of_trees MethodTree.isMethod methods) (hc.trans heq)] at hstarts
  cases hstarts

end VarTree

namespace MethodTree

theorem type_ne_public (t : TypeTree) (us tl : List Token) : t.tokens ++ tl ≠ .ofKeyword .kwPublic :: us := by
  intro heq
  obtain ⟨text, ts, htokens, hreserved⟩ := t.isType.head
  rw [htokens] at heq
  exact hreserved .kwPublic nofun nofun (List.cons.inj heq).1

theorem access_unambiguous {isPublic isPublic' : Bool} {t t' : TypeTree} {tl tl' : List Token}
    (heq : (if isPublic then [.ofKeyword .kwPublic] else []) ++ (t.tokens ++ tl) =
      (if isPublic' then [.ofKeyword .kwPublic] else []) ++ (t'.tokens ++ tl')) :
    isPublic = isPublic' ∧ t.tokens ++ tl = t'.tokens ++ tl' := by
  cases isPublic with
  | false =>
      cases isPublic' with
      | false => exact ⟨rfl, heq⟩
      | true => exact absurd heq (type_ne_public t _ _)
  | true =>
      cases isPublic' with
      | false => exact absurd heq.symm (type_ne_public t' _ _)
      | true => exact ⟨rfl, (List.cons.inj heq).2⟩

theorem unambiguous : Unambiguous tokens fun _ => True := by
  rintro ⟨isPublic, type, name, hname, formals, locals, body, result⟩
    ⟨isPublic', type', name', hname', formals', locals', body', result'⟩ tl tl' - - heq
  simp only [tokens, List.append_assoc, List.cons_append, List.nil_append] at heq
  obtain ⟨rfl, htype⟩ := access_unambiguous heq
  obtain ⟨rfl, hsignature⟩ := TypeTree.unambiguous ⟨_, _, rfl⟩ ⟨_, _, rfl⟩ htype
  simp only [List.cons.injEq, Token.word.injEq, true_and] at hsignature
  obtain ⟨rfl, hformals⟩ := hsignature
  obtain ⟨rfl, hblock⟩ := VarTree.formals_unambiguous ⟨_, rfl⟩ ⟨_, rfl⟩ hformals
  obtain ⟨rfl, hbody⟩ := VarTree.declarations_unambiguous (fun v us => v.declaration_ne_body body us _)
    (fun v us => v.declaration_ne_body body' us _) (List.cons.inj (List.cons.inj hblock).2).2
  obtain ⟨rfl, hresult⟩ := body.determined body' ⟨_, _, rfl, Or.inr rfl⟩ ⟨_, _, rfl, Or.inr rfl⟩ hbody
  obtain ⟨rfl, hend⟩ := result.determined result' (Level.stops_of_none rfl) (Level.stops_of_none rfl)
    (List.cons.inj hresult).2
  exact ⟨rfl, (List.cons.inj (List.cons.inj hend).2).2⟩

theorem methods_unambiguous : Unambiguous (List.flatMap tokens) fun tl => ∃ us, tl = .rbrace :: us := by
  refine unambiguous.many ?_
  rintro m tl ⟨us, hus⟩
  exact m.isMethod.headNe.append_ne_cons tl us hus

end MethodTree

theorem ExtensionTree.unambiguous : Unambiguous ExtensionTree.tokens fun tl => ∃ us, tl = .lbrace :: us := by
  rintro t u tl tl' ⟨us, rfl⟩ ⟨us', rfl⟩ heq
  cases t with
  | none =>
      cases u with
      | none => exact ⟨rfl, heq⟩
      | some => cases heq
  | some superName hname =>
      cases u with
      | none => cases heq
      | some superName' hname' =>
          obtain ⟨hword, htail⟩ := List.cons.inj (List.cons.inj heq).2
          obtain rfl := Token.word.inj hword
          exact ⟨rfl, htail⟩

namespace ClassTree

theorem unambiguous : Unambiguous tokens fun _ => True := by
  rintro ⟨name, hname, extension, fields, methods⟩ ⟨name', hname', extension', fields', methods'⟩ tl tl' - - heq
  simp only [tokens, List.append_assoc, List.cons_append, List.nil_append, List.cons.injEq, Token.word.injEq,
    true_and] at heq
  obtain ⟨rfl, hextension⟩ := heq
  obtain ⟨rfl, hblock⟩ := ExtensionTree.unambiguous ⟨_, rfl⟩ ⟨_, rfl⟩ hextension
  obtain ⟨rfl, hmethods⟩ := VarTree.declarations_unambiguous (fun v us => v.declaration_ne_methods methods us _)
    (fun v us => v.declaration_ne_methods methods' us _) (List.cons.inj hblock).2
  obtain ⟨rfl, hend⟩ := MethodTree.methods_unambiguous ⟨_, rfl⟩ ⟨_, rfl⟩ hmethods
  exact ⟨rfl, (List.cons.inj hend).2⟩

theorem classes_unambiguous : Unambiguous (List.flatMap tokens) fun tl => tl = [] := by
  refine unambiguous.many fun c tl hnil => ?_
  exact (c.isClass.headNe.append tl).ne_nil hnil

end ClassTree

theorem MainTree.unambiguous : Unambiguous MainTree.tokens fun _ => True := by
  rintro ⟨name, hname, argsName, hargs, body⟩ ⟨name', hname', argsName', hargs', body'⟩ tl tl' - - heq
  simp only [tokens, List.append_assoc, List.cons_append, List.nil_append, List.cons.injEq, Token.word.injEq,
    true_and] at heq
  obtain ⟨rfl, rfl, hbody⟩ := heq
  obtain ⟨rfl, hend⟩ := body.determined body' trivial trivial hbody
  exact ⟨rfl, (List.cons.inj (List.cons.inj hend).2).2⟩

/-- Programs with the same tokens have the same derivation. -/
theorem ProgramTree.tokens_injective {t u : ProgramTree} (heq : t.tokens = u.tokens) : t = u := by
  obtain ⟨main, classes⟩ := t
  obtain ⟨main', classes'⟩ := u
  obtain ⟨rfl, hclasses⟩ := MainTree.unambiguous trivial trivial heq
  rw [← List.append_nil (classes.flatMap _), ← List.append_nil (classes'.flatMap _)] at hclasses
  obtain ⟨rfl, -⟩ := ClassTree.classes_unambiguous rfl rfl hclasses
  rfl

end Demitasse
