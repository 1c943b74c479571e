import Demitasse.Proofs.Acceptance

/-! Derivation trees of the grammar. There is one constructor for each production, and a repetition is derived item by
item. A tree yields its tokens and builds the part of a program that they stand for, with nodes that say nothing;
operators in a row are put together from the left. -/

namespace Demitasse

/-- The symbols from which expressions are derived. -/
inductive ExprSymbol where
  /-- an expression of a level -/
  | expr (lvl : Level)
  /-- the operators of a level behind the first operand, with their right operands -/
  | operators (lvl : Level)
  /-- what may stand behind a primary expression -/
  | suffixes
  /-- the arguments of a call -/
  | args
  /-- the arguments of a call behind the first one -/
  | moreArgs

/-- The derivations from a symbol. -/
inductive ExprTree : ExprSymbol → Type where
  | chain {lvl : Level} (hlvl : ∃ op : BinOp, op.level = lvl) (first : ExprTree (.expr lvl.inner))
      (rest : ExprTree (.operators lvl)) : ExprTree (.expr lvl)
  | noOperator {lvl : Level} : ExprTree (.operators lvl)
  | operator {lvl : Level} (op : BinOp) (hop : op.level = lvl) (right : ExprTree (.expr lvl.inner))
      (rest : ExprTree (.operators lvl)) : ExprTree (.operators lvl)
  | not (operand : ExprTree (.expr .negation)) : ExprTree (.expr .negation)
  | plain (e : ExprTree (.expr .suffixed)) : ExprTree (.expr .negation)
  | suffixed (e : ExprTree (.expr .primary)) (rest : ExprTree .suffixes) : ExprTree (.expr .suffixed)
  | noSuffix : ExprTree .suffixes
  | element (index : ExprTree (.expr .conjunction)) (rest : ExprTree .suffixes) : ExprTree .suffixes
  | length (rest : ExprTree .suffixes) : ExprTree .suffixes
  | call (method : String) (hmethod : IsName method) (args : ExprTree .args) (rest : ExprTree .suffixes) :
      ExprTree .suffixes
  | noArg : ExprTree .args
  | arg (first : ExprTree (.expr .conjunction)) (rest : ExprTree .moreArgs) : ExprTree .args
  | noMoreArg : ExprTree .moreArgs
  | moreArg (next : ExprTree (.expr .conjunction)) (rest : ExprTree .moreArgs) : ExprTree .moreArgs
  | int (value : Nat) (hvalue : value ≤ 2147483647) : ExprTree (.expr .primary)
  | bool (value : Bool) : ExprTree (.expr .primary)
  | var (name : String) (hname : IsName name) : ExprTree (.expr .primary)
  | this : ExprTree (.expr .primary)
  | newArray (size : ExprTree (.expr .conjunction)) : ExprTree (.expr .primary)
  | newObject (className : String) (hname : IsName className) : ExprTree (.expr .primary)
  | paren (e : ExprTree (.expr .conjunction)) : ExprTree (.expr .primary)

/-- What a derivation from a symbol builds: expressions, or what is done with the expression in front. -/
abbrev ExprSymbol.Meaning : ExprSymbol → Type
  | .expr _ => Expr
  | .operators _ | .suffixes => Expr → Expr
  | .args | .moreArgs => List Expr

/-- A node that says nothing. -/
def Node.none : Node :=
  ⟨0, .origin⟩

namespace ExprTree

/-- The tokens of a derivation. -/
@[simp]
def tokens : {s : ExprSymbol} → ExprTree s → List Token
  | _, .chain _ first rest => first.tokens ++ rest.tokens
  | _, .noOperator => []
  | _, .operator op _ right rest => op.token :: (right.tokens ++ rest.tokens)
  | _, .not operand => .bang :: operand.tokens
  | _, .plain e => e.tokens
  | _, .suffixed e rest => e.tokens ++ rest.tokens
  | _, .noSuffix => []
  | _, .element index rest => .lbracket :: (index.tokens ++ .rbracket :: rest.tokens)
  | _, .length rest => .dot :: .word "length" :: rest.tokens
  | _, .call method _ args rest => .dot :: .word method :: .lparen :: (args.tokens ++ .rparen :: rest.tokens)
  | _, .noArg => []
  | _, .arg first rest => first.tokens ++ rest.tokens
  | _, .noMoreArg => []
  | _, .moreArg next rest => .comma :: (next.tokens ++ rest.tokens)
  | _, .int value _ => [.integer value]
  | _, .bool value => [.ofKeyword (if value then .kwTrue else .kwFalse)]
  | _, .var name _ => [.word name]
  | _, .this => [.ofKeyword .kwThis]
  | _, .newArray size => .ofKeyword .kwNew :: .ofKeyword .kwInt :: .lbracket :: (size.tokens ++ [.rbracket])
  | _, .newObject className _ => [.ofKeyword .kwNew, .word className, .lparen, .rparen]
  | _, .paren e => .lparen :: (e.tokens ++ [.rparen])

/-- What a derivation builds. -/
def build : {s : ExprSymbol} → ExprTree s → s.Meaning
  | _, .chain _ first rest => rest.build first.build
  | _, .noOperator => fun e => e
  | _, .operator op _ right rest => fun e => rest.build (.binary .none op e right.build)
  | _, .not operand => .not .none operand.build
  | _, .plain e => e.build
  | _, .suffixed e rest => rest.build e.build
  | _, .noSuffix => fun e => e
  | _, .element index rest => fun e => rest.build (.element .none e index.build)
  | _, .length rest => fun e => rest.build (.length .none e)
  | _, .call method _ args rest => fun e => rest.build (.call .none e method args.build)
  | _, .noArg => []
  | _, .arg first rest => first.build :: rest.build
  | _, .noMoreArg => []
  | _, .moreArg next rest => next.build :: rest.build
  | _, .int value _ => .int .none value
  | _, .bool value => .bool .none value
  | _, .var name _ => .var .none name
  | _, .this => .this .none
  | _, .newArray size => .newArray .none size.build
  | _, .newObject className _ => .newObject .none className
  | _, .paren e => e.build

end ExprTree

/-- What a derivation from a symbol shows about its tokens. -/
def ExprSymbol.Shows : (s : ExprSymbol) → List Token → s.Meaning → Prop
  | .expr lvl, ts, e => IsExpr lvl ts e
  | .operators lvl, ts, f => ∀ us e, IsExpr lvl us e → IsExpr lvl (us ++ ts) (f e)
  | .suffixes, ts, f => ∀ us e, IsExpr .suffixed us e → IsExpr .suffixed (us ++ ts) (f e)
  | .args, ts, es => Separated (IsExpr .conjunction) ts es
  | .moreArgs, ts, es => ∀ us e, IsExpr .conjunction us e → Separated (IsExpr .conjunction) (us ++ ts) (e :: es)

theorem ExprTree.shows {s : ExprSymbol} (t : ExprTree s) : s.Shows t.tokens t.build := by
  induction t with
  | chain hlvl first rest ihfirst ihrest =>
      refine ihrest _ _ (.lift ?_ ihfirst)
      obtain ⟨op, rfl⟩ := hlvl
      cases op <;> nofun
  | noOperator =>
      intro us e h
      rw [tokens, List.append_nil]
      exact h
  | operator op hop right rest ihright ihrest =>
      intro us e h
      rw [tokens, ← List.cons_append, ← List.append_assoc]
      exact ihrest _ _ (.binary .none hop h ihright)
  | not operand ih => exact .not .none ih
  | plain e ih => exact .lift nofun ih
  | suffixed e rest ihe ihrest => exact ihrest _ _ (.lift nofun ihe)
  | noSuffix =>
      intro us e h
      rw [tokens, List.append_nil]
      exact h
  | element index rest ihindex ihrest =>
      intro us e h
      have hnext := ihrest _ _ (.element .none h ihindex)
      simp only [List.append_assoc, List.cons_append, List.nil_append] at hnext
      exact hnext
  | length rest ihrest =>
      intro us e h
      have hnext := ihrest _ _ (.length .none h)
      simp only [List.append_assoc, List.cons_append, List.nil_append] at hnext
      exact hnext
  | call method hmethod args rest ihargs ihrest =>
      intro us e h
      have hnext := ihrest _ _ (.call .none h hmethod ihargs)
      simp only [List.append_assoc, List.cons_append, List.nil_append] at hnext
      exact hnext
  | noArg => exact .nil
  | arg first rest ihfirst ihrest => exact ihrest _ _ ihfirst
  | noMoreArg =>
      intro us e h
      rw [tokens, List.append_nil]
      exact .one h
  | moreArg next rest ihnext ihrest =>
      intro us e h
      exact .cons h (ihrest _ _ ihnext)
  | int value hvalue => exact .int .none hvalue
  | bool value => exact .bool .none value
  | var name hname => exact .var .none hname
  | this => exact .this .none
  | newArray size ih => exact .newArray .none ih
  | newObject className hname => exact .newObject .none hname
  | paren e ih => exact .paren ih

namespace ExprTree

/-! Operators and suffixes are derived from the left, and more of them are put behind. -/

theorem append_operators {lvl : Level} (more : ExprTree (.operators lvl)) : ∀ rest : ExprTree (.operators lvl),
    ∃ both : ExprTree (.operators lvl), both.tokens = rest.tokens ++ more.tokens ∧
      ∀ e, both.build e = more.build (rest.build e)
  | .noOperator => ⟨more, rfl, fun _ => rfl⟩
  | .operator op hop right rest => by
      obtain ⟨both, htokens, hbuild⟩ := append_operators more rest
      refine ⟨.operator op hop right both, ?_, fun e => hbuild _⟩
      rw [tokens, tokens, htokens, List.cons_append, List.append_assoc]

theorem append_suffixes (more : ExprTree .suffixes) : ∀ rest : ExprTree .suffixes,
    ∃ both : ExprTree .suffixes, both.tokens = rest.tokens ++ more.tokens ∧
      ∀ e, both.build e = more.build (rest.build e)
  | .noSuffix => ⟨more, rfl, fun _ => rfl⟩
  | .element index rest => by
      obtain ⟨both, htokens, hbuild⟩ := append_suffixes more rest
      refine ⟨.element index both, ?_, fun e => hbuild _⟩
      rw [tokens, tokens, htokens, List.cons_append, List.append_assoc, List.cons_append]
  | .length rest => by
      obtain ⟨both, htokens, hbuild⟩ := append_suffixes more rest
      refine ⟨.length both, ?_, fun e => hbuild _⟩
      rw [tokens, tokens, htokens, List.cons_append, List.cons_append]
  | .call method hmethod args rest => by
      obtain ⟨both, htokens, hbuild⟩ := append_suffixes more rest
      refine ⟨.call method hmethod args both, ?_, fun e => hbuild _⟩
      rw [tokens, tokens, htokens]
      simp only [List.cons_append, List.append_assoc]

/-- Some derivation yields the tokens and builds the expression, up to its nodes. -/
def Derived (lvl : Level) (ts : List Token) (e : Expr) : Prop :=
  ∃ t : ExprTree (.expr lvl), t.tokens = ts ∧ t.build = e.mapNodes Node.blank

variable {lvl : Level} {ts us : List Token} {e : Expr}

theorem Derived.lift (hlvl : lvl ≠ .primary) (h : Derived lvl.inner ts e) : Derived lvl ts e := by
  obtain ⟨t, htokens, hbuild⟩ := h
  have hchain : (∃ op : BinOp, op.level = lvl) → Derived lvl ts e := by
    intro hop
    refine ⟨.chain hop t .noOperator, ?_, hbuild⟩
    rw [tokens, tokens, List.append_nil, htokens]
  cases lvl with
  | conjunction => exact hchain ⟨.and, rfl⟩
  | comparison => exact hchain ⟨.less, rfl⟩
  | sum => exact hchain ⟨.add, rfl⟩
  | product => exact hchain ⟨.mul, rfl⟩
  | negation => exact ⟨.plain t, htokens, hbuild⟩
  | suffixed =>
      refine ⟨.suffixed t .noSuffix, ?_, hbuild⟩
      change t.tokens ++ [] = ts
      rw [List.append_nil, htokens]
  | primary => exact absurd rfl hlvl

theorem exists_chain (t : ExprTree (.expr lvl)) (hlvl : ∃ op : BinOp, op.level = lvl) :
    ∃ first rest, t = .chain hlvl first rest := by
  obtain ⟨op, hop⟩ := hlvl
  cases t with
  | chain _ first rest => exact ⟨first, rest, rfl⟩
  | _ => cases op <;> cases hop

/-- Behind a derived expression stands one more operator of its level. -/
theorem Derived.binary {op : BinOp} {right : Expr} (h : Derived op.level ts e)
    (hright : Derived op.level.inner us right) (node : Node) : Derived op.level (ts ++ op.token :: us) (.binary node op e right) := by
  obtain ⟨t, rfl, hbuild⟩ := h
  obtain ⟨u, rfl, hbuild'⟩ := hright
  obtain ⟨first, rest, rfl⟩ := t.exists_chain ⟨op, rfl⟩
  obtain ⟨both, htokens, hboth⟩ := append_operators (.operator op rfl u .noOperator) rest
  refine ⟨.chain ⟨op, rfl⟩ first both, ?_, ?_⟩
  · rw [tokens, tokens, htokens, tokens, tokens, List.append_nil, List.append_assoc]
  · change both.build first.build = _
    rw [hboth]
    change Expr.binary .none op (rest.build first.build) u.build = _
    change rest.build first.build = _ at hbuild
    rw [hbuild, hbuild', Expr.mapNodes]
    rfl

/-- Behind a derived expression stands one more suffix. -/
theorem Derived.suffix (h : Derived .suffixed ts e) (s : ExprTree .suffixes) {whole : Expr}
    (hs : s.build (e.mapNodes Node.blank) = whole.mapNodes Node.blank) : Derived .suffixed (ts ++ s.tokens) whole := by
  obtain ⟨t, rfl, hbuild⟩ := h
  cases t with
  | chain hlvl =>
      obtain ⟨op, hop⟩ := hlvl
      cases op <;> cases hop
  | suffixed t rest =>
      obtain ⟨both, htokens, hboth⟩ := append_suffixes s rest
      refine ⟨.suffixed t both, ?_, ?_⟩
      · rw [tokens, tokens, htokens, List.append_assoc]
      · change both.build t.build = _
        change rest.build t.build = _ at hbuild
        rw [hboth, hbuild, hs]

theorem exists_args {es : List Expr} (h : Separated (Derived .conjunction) ts es) :
    ∃ t : ExprTree .args, t.tokens = ts ∧ t.build = es.map (Expr.mapNodes Node.blank) := by
  induction h with
  | nil => exact ⟨.noArg, rfl, rfl⟩
  | one h =>
      obtain ⟨t, rfl, hbuild⟩ := h
      refine ⟨.arg t .noMoreArg, ?_, ?_⟩
      · rw [tokens, tokens, List.append_nil]
      · exact congrArg (· :: []) hbuild
  | cons h _ ih =>
      obtain ⟨t, rfl, hbuild⟩ := h
      obtain ⟨u, rfl, hbuild'⟩ := ih
      cases u with
      | noArg => cases hbuild'
      | arg next rest =>
          refine ⟨.arg t (.moreArg next rest), rfl, ?_⟩
          exact congrArg₂ List.cons hbuild hbuild'

end ExprTree

open ExprTree in
/-- Expressions of the grammar have derivations. -/
theorem IsExpr.derived {lvl : Level} {ts : List Token} {e : Expr} (h : IsExpr lvl ts e) : Derived lvl ts e := by
  induction h using IsExpr.induct with
  | lift hlvl h ih => exact ih.lift hlvl
  | binary node hop hl hr ihl ihr =>
      subst hop
      exact ihl.binary ihr node
  | not node h ih =>
      obtain ⟨t, rfl, hbuild⟩ := ih
      exact ⟨.not t, rfl, congrArg (Expr.not .none) hbuild⟩
  | @element node ts us array index ha hi iha ihi =>
      obtain ⟨t, rfl, hbuild⟩ := ihi
      refine iha.suffix (.element t .noSuffix) ?_
      exact congrArg (Expr.element .none _) hbuild
  | length node h ih => exact ih.suffix (.length .noSuffix) rfl
  | call node ho hm hargs iho ihargs =>
      obtain ⟨t, rfl, hbuild⟩ := exists_args (ihargs.imp_of_length fun us e _ h => h.choose_spec)
      refine iho.suffix (.call _ hm t .noSuffix) ?_
      rw [Expr.mapNodes, Expr.mapNodesAll_eq, ← hbuild]
      rfl
  | int node h => exact ⟨.int _ h, rfl, rfl⟩
  | bool node value => exact ⟨.bool value, rfl, rfl⟩
  | var node h => exact ⟨.var _ h, rfl, rfl⟩
  | this node => exact ⟨.this, rfl, rfl⟩
  | newArray node h ih =>
      obtain ⟨t, rfl, hbuild⟩ := ih
      exact ⟨.newArray t, rfl, congrArg (Expr.newArray .none) hbuild⟩
  | newObject node h => exact ⟨.newObject _ h, rfl, rfl⟩
  | paren h ih =>
      obtain ⟨t, rfl, hbuild⟩ := ih
      exact ⟨.paren t, rfl, hbuild⟩

/-! ### Statements -/

/-- The symbols from which statements are derived. -/
inductive StmtSymbol where
  /-- one statement -/
  | stmt
  /-- statements one after the other -/
  | stmts

/-- The derivations from a symbol. -/
inductive StmtTree : StmtSymbol → Type where
  | block (body : StmtTree .stmts) : StmtTree .stmt
  | ifElse (cond : ExprTree (.expr .conjunction)) (thenBranch elseBranch : StmtTree .stmt) : StmtTree .stmt
  | loop (cond : ExprTree (.expr .conjunction)) (body : StmtTree .stmt) : StmtTree .stmt
  | print (arg : ExprTree (.expr .conjunction)) : StmtTree .stmt
  | assign (target : String) (htarget : IsName target) (value : ExprTree (.expr .conjunction)) : StmtTree .stmt
  | assignElement (target : String) (htarget : IsName target) (index value : ExprTree (.expr .conjunction)) :
      StmtTree .stmt
  | noStmt : StmtTree .stmts
  | moreStmt (first : StmtTree .stmt) (rest : StmtTree .stmts) : StmtTree .stmts

/-- What a derivation from a symbol builds. -/
abbrev StmtSymbol.Meaning : StmtSymbol → Type
  | .stmt => Stmt
  | .stmts => List Stmt

namespace StmtTree

/-- The tokens of a derivation. -/
@[simp]
def tokens : {s : StmtSymbol} → StmtTree s → List Token
  | _, .block body => .lbrace :: (body.tokens ++ [.rbrace])
  | _, .ifElse cond thenBranch elseBranch =>
    .ofKeyword .kwIf :: .lparen :: (cond.tokens ++ .rparen ::
      (thenBranch.tokens ++ .ofKeyword .kwElse :: elseBranch.tokens))
  | _, .loop cond body => .ofKeyword .kwWhile :: .lparen :: (cond.tokens ++ .rparen :: body.tokens)
  | _, .print arg => .println :: .lparen :: (arg.tokens ++ [.rparen, .semicolon])
  | _, .assign target _ value => .word target :: .assign :: (value.tokens ++ [.semicolon])
  | _, .assignElement target _ index value =>
    .word target :: .lbracket :: (index.tokens ++ .rbracket :: .assign :: (value.tokens ++ [.semicolon]))
  | _, .noStmt => []
  | _, .moreStmt first rest => first.tokens ++ rest.tokens

/-- What a derivation builds. -/
def build : {s : StmtSymbol} → StmtTree s → s.Meaning
  | _, .block body => .block .none body.build
  | _, .ifElse cond thenBranch elseBranch => .ifElse .none cond.build thenBranch.build elseBranch.build
  | _, .loop cond body => .loop .none cond.build body.build
  | _, .print arg => .print .none arg.build
  | _, .assign target _ value => .assign .none target value.build
  | _, .assignElement target _ index value => .assignElement .none target index.build value.build
  | _, .noStmt => []
  | _, .moreStmt first rest => first.build :: rest.build

end StmtTree

/-- What a derivation from a symbol shows about its tokens. -/
def StmtSymbol.Shows : (s : StmtSymbol) → List Token → s.Meaning → Prop
  | .stmt => IsStmt
  | .stmts => Many IsStmt

theorem StmtTree.shows {s : StmtSymbol} (t : StmtTree s) : s.Shows t.tokens t.build := by
  induction t with
  | block body ih => exact .block .none ih
  | ifElse cond thenBranch elseBranch ihthen ihelse => exact .ifElse .none cond.shows ihthen ihelse
  | loop cond body ih => exact .loop .none cond.shows ih
  | print arg => exact .print .none arg.shows
  | assign target htarget value => exact .assign .none htarget value.shows
  | assignElement target htarget index value => exact .assignElement .none htarget index.shows value.shows
  | noStmt => exact .nil
  | moreStmt first rest ihfirst ihrest => exact .cons ihfirst ihrest

namespace StmtTree

/-- Some derivation yields the tokens and builds the statement, up to its nodes. -/
def Derived (ts : List Token) (s : Stmt) : Prop :=
  ∃ t : StmtTree .stmt, t.tokens = ts ∧ t.build = s.mapNodes Node.blank

theorem exists_stmts {ts : List Token} {ss : List Stmt} (h : Many Derived ts ss) :
    ∃ t : StmtTree .stmts, t.tokens = ts ∧ t.build = Stmt.mapNodesAll Node.blank ss := by
  induction h with
  | nil => exact ⟨.noStmt, rfl, rfl⟩
  | cons h _ ih =>
      obtain ⟨t, rfl, hbuild⟩ := h
      obtain ⟨u, rfl, hbuild'⟩ := ih
      exact ⟨.moreStmt t u, rfl, congrArg₂ List.cons hbuild hbuild'⟩

end StmtTree

open StmtTree in
/-- Statements of the grammar have derivations. -/
theorem IsStmt.derived {ts : List Token} {s : Stmt} (h : IsStmt ts s) : Derived ts s := by
  induction h using IsStmt.induct with
  | block node h ih =>
      obtain ⟨t, rfl, hbuild⟩ := exists_stmts (ih.imp_of_length fun us s _ h => h.choose_spec)
      exact ⟨.block t, rfl, congrArg (Stmt.block .none) hbuild⟩
  | ifElse node hc ht he iht ihe =>
      obtain ⟨cond, rfl, hcond⟩ := hc.derived
      obtain ⟨thenBranch, rfl, hthen⟩ := iht
      obtain ⟨elseBranch, rfl, helse⟩ := ihe
      refine ⟨.ifElse cond thenBranch elseBranch, rfl, ?_⟩
      rw [build, hcond, hthen, helse]
      rfl
  | loop node hc hb ihb =>
      obtain ⟨cond, rfl, hcond⟩ := hc.derived
      obtain ⟨body, rfl, hbody⟩ := ihb
      exact ⟨.loop cond body, rfl, congrArg₂ (Stmt.loop .none) hcond hbody⟩
  | print node h =>
      obtain ⟨arg, rfl, harg⟩ := h.derived
      exact ⟨.print arg, rfl, congrArg (Stmt.print .none) harg⟩
  | assign node hn hv =>
      obtain ⟨value, rfl, hvalue⟩ := hv.derived
      exact ⟨.assign _ hn value, rfl, congrArg (Stmt.assign .none _) hvalue⟩
  | assignElement node hn hi hv =>
      obtain ⟨index, rfl, hindex⟩ := hi.derived
      obtain ⟨value, rfl, hvalue⟩ := hv.derived
      exact ⟨.assignElement _ hn index value, rfl, congrArg₂ (Stmt.assignElement .none _) hindex hvalue⟩

section
variable {τ α β : Type} {tokens : τ → List Token} {build : τ → β} {D : List Token → α → Prop} {shape : α → β}

/-- The tokens of items with a comma between them. -/
def separatedTokens (tokens : τ → List Token) : List τ → List Token
  | [] => []
  | t :: rest => tokens t ++ rest.flatMap fun u => .comma :: tokens u

theorem many_of_trees {D : List Token → β → Prop} (h : ∀ t, D (tokens t) (build t)) :
    ∀ trees : List τ, Many D (trees.flatMap tokens) (trees.map build)
  | [] => .nil
  | t :: rest => .cons (h t) (many_of_trees h rest)

theorem separated_of_trees {D : List Token → β → Prop} (h : ∀ t, D (tokens t) (build t)) :
    ∀ trees : List τ, Separated D (separatedTokens tokens trees) (trees.map build)
  | [] => .nil
  | [t] => by
      rw [separatedTokens, List.flatMap_nil, List.append_nil]
      exact .one (h t)
  | t :: u :: rest => .cons (h t) (separated_of_trees h (u :: rest))

theorem Many.exists_trees {ts : List Token} {as : List α} (h : Many D ts as)
    (hD : ∀ us a, D us a → ∃ t, tokens t = us ∧ build t = shape a) :
    ∃ trees : List τ, trees.flatMap tokens = ts ∧ trees.map build = as.map shape := by
  induction h with
  | nil => exact ⟨[], rfl, rfl⟩
  | cons h _ ih =>
      obtain ⟨t, rfl, hbuild⟩ := hD _ _ h
      obtain ⟨trees, rfl, hbuild'⟩ := ih
      exact ⟨t :: trees, rfl, congrArg₂ List.cons hbuild hbuild'⟩

theorem Separated.exists_trees {ts : List Token} {as : List α} (h : Separated D ts as)
    (hD : ∀ us a, D us a → ∃ t, tokens t = us ∧ build t = shape a) :
    ∃ trees : List τ, separatedTokens tokens trees = ts ∧ trees.map build = as.map shape := by
  induction h with
  | nil => exact ⟨[], rfl, rfl⟩
  | one h =>
      obtain ⟨t, rfl, hbuild⟩ := hD _ _ h
      exact ⟨[t], List.append_nil _, congrArg (· :: []) hbuild⟩
  | cons h _ ih =>
      obtain ⟨t, rfl, hbuild⟩ := hD _ _ h
      obtain ⟨_ | ⟨u, trees⟩, rfl, hbuild'⟩ := ih
      · cases hbuild'
      · exact ⟨t :: u :: trees, rfl, congrArg₂ List.cons hbuild hbuild'⟩

end

/-! ### Declarations and programs -/

/-- The derivations of types. -/
inductive TypeTree where
  | int
  | intArray
  | boolean
  | object (className : String) (hname : IsName className)

/-- The derivations of parameters, and of variable declarations, which have a semicolon more. -/
structure VarTree where
  type : TypeTree
  name : String
  hname : IsName name

/-- The derivations of methods. -/
structure MethodTree where
  isPublic : Bool
  returnType : TypeTree
  name : String
  hname : IsName name
  formals : List VarTree
  locals : List VarTree
  body : StmtTree .stmts
  result : ExprTree (.expr .conjunction)

/-- The derivations of what follows the name of a class. -/
inductive ExtensionTree where
  | none
  | some (superName : String) (hname : IsName superName)

/-- The derivations of classes. -/
structure ClassTree where
  name : String
  hname : IsName name
  extension : ExtensionTree
  fields : List VarTree
  methods : List MethodTree

/-- The derivations of main classes. -/
structure MainTree where
  name : String
  hname : IsName name
  argsName : String
  hargs : IsName argsName
  body : StmtTree .stmt

/-- The derivations of programs. -/
structure ProgramTree where
  main : MainTree
  classes : List ClassTree

namespace TypeTree

def tokens : TypeTree → List Token
  | .int => [.ofKeyword .kwInt]
  | .intArray => [.ofKeyword .kwInt, .lbracket, .rbracket]
  | .boolean => [.ofKeyword .kwBoolean]
  | .object className _ => [.word className]

def build : TypeTree → Ty
  | .int => .int
  | .intArray => .intArray
  | .boolean => .boolean
  | .object className _ => .object className

theorem isType : ∀ t : TypeTree, IsType t.tokens t.build
  | .int => .int
  | .intArray => .intArray
  | .boolean => .boolean
  | .object _ hname => .object hname

end TypeTree

theorem IsType.derived {ts : List Token} {ty : Ty} (h : IsType ts ty) :
    ∃ t : TypeTree, t.tokens = ts ∧ t.build = ty := by
  cases h with
  | int => exact ⟨.int, rfl, rfl⟩
  | intArray => exact ⟨.intArray, rfl, rfl⟩
  | boolean => exact ⟨.boolean, rfl, rfl⟩
  | object hname => exact ⟨.object _ hname, rfl, rfl⟩

namespace VarTree

/-- The tokens of a parameter. -/
def tokens (v : VarTree) : List Token :=
  v.type.tokens ++ [.word v.name]

/-- The tokens of a variable declaration. -/
def declaration (v : VarTree) : List Token :=
  v.type.tokens ++ [.word v.name, .semicolon]

def build (v : VarTree) : VarDecl :=
  ⟨.none, v.type.build, v.name⟩

theorem isFormal (v : VarTree) : IsFormal v.tokens v.build :=
  .mk (v := v.build) v.type.isType v.hname

theorem isVarDecl (v : VarTree) : IsVarDecl v.declaration v.build :=
  .mk (v := v.build) v.type.isType v.hname

end VarTree

theorem IsFormal.derived {ts : List Token} {v : VarDecl} (h : IsFormal ts v) :
    ∃ t : VarTree, t.tokens = ts ∧ t.build = v.mapNodes Node.blank := by
  obtain ⟨hty, hname⟩ := h
  obtain ⟨type, rfl, hbuild⟩ := hty.derived
  exact ⟨⟨type, v.name, hname⟩, rfl, congrArg (VarDecl.mk .none · v.name) hbuild⟩

theorem IsVarDecl.derived {ts : List Token} {v : VarDecl} (h : IsVarDecl ts v) :
    ∃ t : VarTree, t.declaration = ts ∧ t.build = v.mapNodes Node.blank := by
  obtain ⟨hty, hname⟩ := h
  obtain ⟨type, rfl, hbuild⟩ := hty.derived
  exact ⟨⟨type, v.name, hname⟩, rfl, congrArg (VarDecl.mk .none · v.name) hbuild⟩

namespace MethodTree

def tokens (m : MethodTree) : List Token :=
  (if m.isPublic then [.ofKeyword .kwPublic] else []) ++ (m.returnType.tokens ++ .word m.name :: .lparen ::
    (separatedTokens VarTree.tokens m.formals ++ .rparen :: .lbrace :: (m.locals.flatMap VarTree.declaration ++
      (m.body.tokens ++ .ofKeyword .kwReturn :: (m.result.tokens ++ [.semicolon, .rbrace])))))

def build (m : MethodTree) : MethodDecl where
  node := .none
  returnType := m.returnType.build
  name := m.name
  formals := m.formals.map VarTree.build
  locals := m.locals.map VarTree.build
  body := m.body.build
  result := m.result.build

theorem isMethod (m : MethodTree) : IsMethod m.tokens m.build := by
  refine .mk (m := m.build) ?_ m.returnType.isType m.hname (separated_of_trees VarTree.isFormal m.formals)
    (many_of_trees VarTree.isVarDecl m.locals) m.body.shows m.result.shows
  cases m.isPublic with
  | false => exact Or.inl rfl
  | true => exact Or.inr rfl

end MethodTree

theorem IsMethod.derived {ts : List Token} {m : MethodDecl} (h : IsMethod ts m) :
    ∃ t : MethodTree, t.tokens = ts ∧ t.build = m.mapNodes Node.blank := by
  obtain ⟨haccess, hty, hname, hfs, hvs, hbs, hrs⟩ := h
  rename_i access ts fs vs bs rs
  obtain ⟨isPublic, rfl⟩ : ∃ isPublic : Bool, access = if isPublic then [.ofKeyword .kwPublic] else [] := by
    rcases haccess with rfl | rfl
    · exact ⟨false, rfl⟩
    · exact ⟨true, rfl⟩
  obtain ⟨returnType, rfl, htype⟩ := hty.derived
  obtain ⟨formals, rfl, hformals⟩ := hfs.exists_trees fun _ _ h => h.derived
  obtain ⟨locals, rfl, hlocals⟩ := hvs.exists_trees fun _ _ h => h.derived
  obtain ⟨body, rfl, hbody⟩ := StmtTree.exists_stmts (hbs.imp_of_length fun _ _ _ h => h.derived)
  obtain ⟨result, rfl, hresult⟩ := hrs.derived
  refine ⟨⟨isPublic, returnType, m.name, hname, formals, locals, body, result⟩, rfl, ?_⟩
  simp only [MethodTree.build, MethodDecl.mapNodes, htype, hformals, hlocals, hbody, hresult]
  rfl

namespace ExtensionTree

def tokens : ExtensionTree → List Token
  | .none => []
  | .some superName _ => [.ofKeyword .kwExtends, .word superName]

def build : ExtensionTree → Option String
  | .none => Option.none
  | .some superName _ => Option.some superName

theorem isExtension : ∀ t : ExtensionTree, IsExtension t.tokens t.build
  | .none => .none
  | .some _ hname => .some hname

end ExtensionTree

theorem IsExtension.derived {ts : List Token} {superName : Option String} (h : IsExtension ts superName) :
    ∃ t : ExtensionTree, t.tokens = ts ∧ t.build = superName := by
  cases h with
  | none => exact ⟨.none, rfl, rfl⟩
  | some hname => exact ⟨.some _ hname, rfl, rfl⟩

namespace ClassTree

def tokens (c : ClassTree) : List Token :=
  .ofKeyword .kwClass :: .word c.name :: (c.extension.tokens ++ .lbrace ::
    (c.fields.flatMap VarTree.declaration ++ (c.methods.flatMap MethodTree.tokens ++ [.rbrace])))

def build (c : ClassTree) : ClassDecl where
  node := .none
  name := c.name
  superName := c.extension.build
  fields := c.fields.map VarTree.build
  methods := c.methods.map MethodTree.build

theorem isClass (c : ClassTree) : IsClass c.tokens c.build :=
  .mk (c := c.build) c.hname c.extension.isExtension (many_of_trees VarTree.isVarDecl c.fields)
    (many_of_trees MethodTree.isMethod c.methods)

end ClassTree

theorem IsClass.derived {ts : List Token} {c : ClassDecl} (h : IsClass ts c) :
    ∃ t : ClassTree, t.tokens = ts ∧ t.build = c.mapNodes Node.blank := by
  obtain ⟨hname, hsuper, hfs, hms⟩ := h
  obtain ⟨extension, rfl, hextension⟩ := hsuper.derived
  obtain ⟨fields, rfl, hfields⟩ := hfs.exists_trees fun _ _ h => h.derived
  obtain ⟨methods, rfl, hmethods⟩ := hms.exists_trees fun _ _ h => h.derived
  refine ⟨⟨c.name, hname, extension, fields, methods⟩, rfl, ?_⟩
  simp only [ClassTree.build, ClassDecl.mapNodes, hextension, hfields, hmethods]
  rfl

namespace MainTree

def tokens (m : MainTree) : List Token :=
  .ofKeyword .kwClass :: .word m.name :: .lbrace :: .ofKeyword .kwPublic :: .ofKeyword .kwStatic ::
    .ofKeyword .kwVoid :: .word "main" :: .lparen :: .word "String" :: .lbracket :: .rbracket ::
    .word m.argsName :: .rparen :: .lbrace :: (m.body.tokens ++ [.rbrace, .rbrace])

def build (m : MainTree) : MainClass where
  node := .none
  name := m.name
  argsName := m.argsName
  body := m.body.build

theorem isMain (m : MainTree) : IsMain m.tokens m.build :=
  .mk (m := m.build) m.hname m.hargs m.body.shows

end MainTree

theorem IsMain.derived {ts : List Token} {m : MainClass} (h : IsMain ts m) :
    ∃ t : MainTree, t.tokens = ts ∧ t.build = m.mapNodes Node.blank := by
  obtain ⟨hname, hargs, hbody⟩ := h
  obtain ⟨body, rfl, hbuild⟩ := hbody.derived
  exact ⟨⟨m.name, hname, m.argsName, hargs, body⟩, rfl, congrArg (MainClass.mk .none m.name m.argsName) hbuild⟩

namespace ProgramTree

def tokens (p : ProgramTree) : List Token :=
  p.main.tokens ++ p.classes.flatMap ClassTree.tokens

def build (p : ProgramTree) : Program where
  main := p.main.build
  classes := p.classes.map ClassTree.build
  span := .origin

theorem isProgram (p : ProgramTree) : IsProgram p.tokens p.build :=
  .mk (p := p.build) p.main.isMain (many_of_trees ClassTree.isClass p.classes)

end ProgramTree

/-- Programs of the grammar have derivations. -/
theorem IsProgram.derived {ts : List Token} {p : Program} (h : IsProgram ts p) :
    ∃ t : ProgramTree, t.tokens = ts ∧ t.build = p.mapNodes Node.blank := by
  obtain ⟨hmain, hclasses⟩ := h
  obtain ⟨main, rfl, hbuild⟩ := hmain.derived
  obtain ⟨classes, rfl, hbuild'⟩ := hclasses.exists_trees fun _ _ h => h.derived
  exact ⟨⟨main, classes⟩, rfl, congrArg₂ (Program.mk · · .origin) hbuild hbuild'⟩

/-- The grammar derives a program from tokens, whatever its nodes are. -/
def Derives (ts : List Token) (p : Program) : Prop :=
  ∃ t : ProgramTree, t.tokens = ts ∧ t.build = p.mapNodes Node.blank

/-- Derivation trees derive what the grammar says. -/
theorem derives_iff {ts : List Token} {p : Program} :
    Derives ts p ↔ ∃ q, IsProgram ts q ∧ q.mapNodes Node.blank = p.mapNodes Node.blank := by
  constructor
  · rintro ⟨t, rfl, hbuild⟩
    refine ⟨t.build, t.isProgram, ?_⟩
    rw [hbuild, Program.mapNodes_mapNodes]
    rfl
  · rintro ⟨q, hq, hshape⟩
    obtain ⟨t, rfl, hbuild⟩ := hq.derived
    exact ⟨t, rfl, hbuild.trans hshape⟩

end Demitasse
