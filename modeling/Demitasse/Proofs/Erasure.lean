import Demitasse.Parse.Program
import Demitasse.Proofs.Shape

/-! Reading without spans. Every parser reads off lexemes without spans what it reads off the lexemes themselves, less
the spans of its result: spans are handed on and merged, but nothing is decided by them. Two texts with the same
tokens have the same lexemes without spans. -/

namespace Demitasse

/-- A cause without its place. -/
def Located.withoutSpan {α : Type} (e : Located α) : Located α :=
  ⟨.origin, e.cause⟩

/-- A token without its place. -/
def Lexeme.withoutSpan (l : Lexeme) : Lexeme :=
  ⟨l.token, .origin⟩

theorem withoutSpan_of_tokens {ls ls' : List Lexeme} (h : ls.map (·.token) = ls'.map (·.token)) :
    ls.map Lexeme.withoutSpan = ls'.map Lexeme.withoutSpan :=
  calc ls.map Lexeme.withoutSpan
      = (ls.map (·.token)).map (⟨·, .origin⟩) := by rw [List.map_map]; rfl
    _ = (ls'.map (·.token)).map (⟨·, .origin⟩) := by rw [h]
    _ = ls'.map Lexeme.withoutSpan := by rw [List.map_map]; rfl

namespace Cursor

/-- A place in lexemes without spans. -/
def withoutSpans (c : Cursor) : Cursor :=
  ⟨c.rest.map Lexeme.withoutSpan, .origin, c.nextId⟩

variable (c : Cursor)

@[simp] theorem token?_withoutSpans (k : Nat) : c.withoutSpans.token? k = c.token? k := by
  simp only [token?, withoutSpans, List.getElem?_map, Option.map_map]
  rfl

@[simp] theorem peek?_withoutSpans : c.withoutSpans.peek? = c.peek? :=
  c.token?_withoutSpans 0

@[simp] theorem sees_withoutSpans (t : Token) : c.withoutSpans.sees t = c.sees t := by
  unfold sees
  rw [peek?_withoutSpans]

@[simp] theorem atEnd_withoutSpans : c.withoutSpans.atEnd = c.atEnd := by
  simp only [atEnd, withoutSpans, List.isEmpty_map]

@[simp] theorem identifierAt_withoutSpans (k : Nat) : c.withoutSpans.identifierAt k = c.identifierAt k := by
  simp only [identifierAt, token?_withoutSpans]

@[simp] theorem typeWidth_withoutSpans : c.withoutSpans.typeWidth = c.typeWidth := by
  simp only [typeWidth, sees_withoutSpans, token?_withoutSpans, identifierAt_withoutSpans]

@[simp] theorem startsVarDecl_withoutSpans : c.withoutSpans.startsVarDecl = c.startsVarDecl := by
  simp only [startsVarDecl, typeWidth_withoutSpans, identifierAt_withoutSpans]

@[simp] theorem startsField_withoutSpans : c.withoutSpans.startsField = c.startsField := by
  simp only [startsField, startsVarDecl_withoutSpans, typeWidth_withoutSpans, token?_withoutSpans]

@[simp] theorem here_withoutSpans : c.withoutSpans.here = .origin := by
  obtain ⟨rest, last, nextId⟩ := c
  cases rest <;> rfl

@[simp] theorem advance_withoutSpans : c.withoutSpans.advance = c.advance.withoutSpans := by
  obtain ⟨rest, last, nextId⟩ := c
  cases rest <;> rfl

end Cursor

theorem Expr.span_withoutSpan (e : Expr) : (e.mapNodes .withoutSpan).span = .origin := by
  cases e <;> rfl

namespace Parser

variable {α α' β β' : Type}

/-- The result of reading, without spans. -/
def erased (f : α → α') :
    EStateM.Result (Located SyntaxFault) Cursor α → EStateM.Result (Located SyntaxFault) Cursor α'
  | .ok a c => .ok (f a) c.withoutSpans
  | .error e c => .error e.withoutSpan c.withoutSpans

/-- Off lexemes without spans, the second parser reads what the first one reads off the lexemes themselves, and `f`
takes the spans off. -/
def Erases (f : α → α') (p : Parser α) (p' : Parser α') : Prop :=
  ∀ c : Cursor, p'.run c.withoutSpans = erased f (p.run c)

namespace Erases

variable {f : α → α'} {g : β → β'} {p q : Parser α} {p' q' : Parser α'} {k : α → Parser β} {k' : α' → Parser β'}

theorem pure (a : α) : Erases f (Pure.pure a) (Pure.pure (f a)) :=
  fun _ => rfl

theorem bind (hp : Erases f p p') (hk : ∀ a, Erases g (k a) (k' (f a))) : Erases g (p >>= k) (p' >>= k') := by
  intro c
  rw [EStateM.run_bind, EStateM.run_bind, hp c]
  cases p.run c with
  | ok a c' => exact hk a c'
  | error e c' => rfl

theorem get : Erases Cursor.withoutSpans MonadState.get MonadState.get :=
  fun _ => rfl

theorem here : Erases (fun _ => .origin) Parser.here Parser.here := by
  refine get.bind fun c => ?_
  rw [Cursor.here_withoutSpans]
  exact .pure _

theorem peek? : Erases (fun t => t) Parser.peek? Parser.peek? := by
  refine get.bind fun c => ?_
  rw [Cursor.peek?_withoutSpans]
  exact .pure _

theorem advance : Erases (fun u => u) Parser.advance Parser.advance := by
  intro c
  change EStateM.Result.ok () c.withoutSpans.advance = EStateM.Result.ok () c.advance.withoutSpans
  rw [Cursor.advance_withoutSpans]

theorem failAt (span : Span) (cause : SyntaxFault) :
    Erases f (Parser.failAt span cause) (Parser.failAt .origin cause) :=
  fun _ => rfl

theorem fail (cause : SyntaxFault) : Erases f (Parser.fail cause) (Parser.fail cause) :=
  here.bind fun span => failAt span cause

theorem ite {b : Prop} [Decidable b] (hp : Erases f p p') (hq : Erases f q q') :
    Erases f (if b then p else q) (if b then p' else q') := by
  split
  · exact hp
  · exact hq

/-- A choice by what stands next is the same without spans. -/
theorem choose {test : Cursor → Bool} (htest : ∀ c : Cursor, test c.withoutSpans = test c) (hp : Erases f p p')
    (hq : Erases f q q') :
    Erases f (do if test (← MonadState.get) then p else q) (do if test (← MonadState.get) then p' else q') := by
  refine get.bind fun c => ?_
  rw [htest]
  exact ite hp hq

theorem accept (t : Token) : Erases (fun b => b) (Parser.accept t) (Parser.accept t) :=
  choose (Cursor.sees_withoutSpans · t) (advance.bind fun _ => .pure true) (.pure false)

theorem require (t : Token) (cause : SyntaxFault) :
    Erases (fun u => u) (Parser.require t cause) (Parser.require t cause) :=
  choose (Cursor.sees_withoutSpans · t) advance (fail cause)

theorem identifier : Erases (fun s => s) Parser.identifier Parser.identifier := by
  refine peek?.bind fun token => ?_
  split
  · exact ite (advance.bind fun _ => .pure _) (fail _)
  · exact fail _

theorem mark (start : Span) : Erases Node.withoutSpan (Parser.mark start) (Parser.mark .origin) :=
  fun _ => rfl

end Erases

section
variable {f : α → α'} {item : Parser α} {item' : Parser α'} (hitem : Erases f item item')
include hitem

theorem many_erases {more : Cursor → Bool} (hmore : ∀ c : Cursor, more c.withoutSpans = more c) (bound : Nat) :
    Erases (List.map f) (many more item bound) (many more item' bound) := by
  induction bound with
  | zero => exact .pure []
  | succ bound ih =>
      refine .choose hmore ?_ (.pure [])
      exact hitem.bind fun a => ih.bind fun rest => .pure (a :: rest)

theorem manyUntil_erases (stop : Token) (unfinished : SyntaxFault) (bound : Nat) :
    Erases (List.map f) (manyUntil stop unfinished item bound) (manyUntil stop unfinished item' bound) := by
  induction bound with
  | zero => exact .fail unfinished
  | succ bound ih =>
      refine Erases.get.bind fun c => ?_
      rw [Cursor.sees_withoutSpans, Cursor.atEnd_withoutSpans]
      refine .ite (.pure []) (.ite (.fail unfinished) ?_)
      exact hitem.bind fun a => ih.bind fun rest => .pure (a :: rest)

theorem separated_erases (bound : Nat) : Erases (List.map f) (separated item bound) (separated item' bound) := by
  induction bound with
  | zero => exact hitem.bind fun a => .pure [a]
  | succ bound ih =>
      refine hitem.bind fun a => (Erases.accept .comma).bind fun _ => .ite ?_ (.pure [a])
      exact ih.bind fun rest => .pure (a :: rest)

theorem parenthesised_erases (bound : Nat) :
    Erases (List.map f) (parenthesised item bound) (parenthesised item' bound) := by
  have hitems : ∀ items : List α, Erases (List.map f) (do expect .rparen; return items)
      (do expect .rparen; return items.map f) :=
    fun items => (Erases.require _ _).bind fun _ => .pure items
  refine (Erases.require _ _).bind fun _ => Erases.get.bind fun c => ?_
  dsimp only
  rw [Cursor.sees_withoutSpans]
  apply Erases.ite
  · exact (Erases.pure []).bind hitems
  · exact (separated_erases hitem bound).bind hitems

end

section
variable {operand operand' nested nested' : Parser Expr} {start : Span}

theorem chain_erases (hoperand : Erases (Expr.mapNodes .withoutSpan) operand operand')
    (operator : Token → Option BinOp) (bound : Nat) :
    ∀ left : Expr, Erases (Expr.mapNodes .withoutSpan) (chain operator operand bound left)
      (chain operator operand' bound (left.mapNodes .withoutSpan)) := by
  induction bound with
  | zero => exact fun left => .pure left
  | succ bound ih =>
      intro left
      refine Erases.peek?.bind fun token => ?_
      cases token.bind operator with
      | none => exact .pure left
      | some op =>
          refine Erases.advance.bind fun _ => hoperand.bind fun right => ?_
          rw [left.span_withoutSpan]
          exact (Erases.mark left.span).bind fun node => ih (.binary node op left right)

theorem leftAssoc_erases (hoperand : Erases (Expr.mapNodes .withoutSpan) operand operand')
    (operator : Token → Option BinOp) (bound : Nat) :
    Erases (Expr.mapNodes .withoutSpan) (leftAssoc operator bound operand) (leftAssoc operator bound operand') :=
  hoperand.bind fun left => chain_erases hoperand operator bound left

theorem wordExpr_erases (hnested : Erases (Expr.mapNodes .withoutSpan) nested nested') (start : Span) (text : String) :
    Erases (Expr.mapNodes .withoutSpan) (wordExpr nested start text) (wordExpr nested' .origin text) := by
  unfold wordExpr
  split
  · exact Erases.advance.bind fun _ => (Erases.mark start).bind fun node => .pure (Expr.bool node true)
  · exact Erases.advance.bind fun _ => (Erases.mark start).bind fun node => .pure (Expr.bool node false)
  · exact Erases.advance.bind fun _ => (Erases.mark start).bind fun node => .pure (Expr.this node)
  · refine Erases.advance.bind fun _ => (Erases.accept _).bind fun _ => .ite ?_ ?_
    · refine (Erases.require _ _).bind fun _ => hnested.bind fun size => (Erases.require _ _).bind fun _ => ?_
      exact (Erases.mark start).bind fun node => .pure (Expr.newArray node size)
    · refine Erases.identifier.bind fun C => (Erases.require _ _).bind fun _ => (Erases.require _ _).bind fun _ => ?_
      exact (Erases.mark start).bind fun node => .pure (Expr.newObject node C)
  · exact .fail _
  · exact Erases.advance.bind fun _ => (Erases.mark start).bind fun node => .pure (Expr.var node text)

theorem primary_erases (hnested : Erases (Expr.mapNodes .withoutSpan) nested nested') :
    Erases (Expr.mapNodes .withoutSpan) (primary nested) (primary nested') := by
  refine Erases.here.bind fun start => Erases.peek?.bind fun token => ?_
  split
  · refine Erases.advance.bind fun _ => .ite ?_ (.failAt start _)
    exact (Erases.mark start).bind fun node => .pure (Expr.int node _)
  · refine Erases.advance.bind fun _ => hnested.bind fun inner => ?_
    exact (Erases.require _ _).bind fun _ => .pure inner
  · exact wordExpr_erases hnested start _
  · exact .fail _

theorem suffixes_erases (hnested : Erases (Expr.mapNodes .withoutSpan) nested nested') (start : Span) (bound : Nat) :
    ∀ e : Expr, Erases (Expr.mapNodes .withoutSpan) (suffixes nested start bound e)
      (suffixes nested' .origin bound (e.mapNodes .withoutSpan)) := by
  induction bound with
  | zero => exact fun e => .pure e
  | succ bound ih =>
      intro e
      refine Erases.peek?.bind fun token => ?_
      split
      · refine Erases.advance.bind fun _ => hnested.bind fun index => (Erases.require _ _).bind fun _ => ?_
        exact (Erases.mark start).bind fun node => ih (.element node e index)
      · refine Erases.advance.bind fun _ => .choose (fun c => ?_) ?_ ?_
        · rw [seesLength, seesLength, Cursor.sees_withoutSpans, Cursor.token?_withoutSpans]
        · exact Erases.advance.bind fun _ => (Erases.mark start).bind fun node => ih (.length node e)
        · refine Erases.identifier.bind fun method => (parenthesised_erases hnested bound).bind fun args => ?_
          refine (Erases.mark start).bind fun node => ?_
          rw [← Expr.mapNodesAll_eq]
          exact ih (.call node e method args)
      · exact .pure e

theorem suffixed_erases (hnested : Erases (Expr.mapNodes .withoutSpan) nested nested') (bound : Nat) :
    Erases (Expr.mapNodes .withoutSpan) (suffixed nested bound) (suffixed nested' bound) :=
  Erases.here.bind fun start => (primary_erases hnested).bind fun e => suffixes_erases hnested start bound e

theorem negation_erases (hoperand : Erases (Expr.mapNodes .withoutSpan) operand operand') (bound : Nat) :
    Erases (Expr.mapNodes .withoutSpan) (negation operand bound) (negation operand' bound) := by
  induction bound with
  | zero => exact hoperand
  | succ bound ih =>
      refine Erases.here.bind fun start => (Erases.accept _).bind fun _ => .ite ?_ hoperand
      exact ih.bind fun e => (Erases.mark start).bind fun node => .pure (Expr.not node e)

theorem exprWithin_erases (bound : Nat) :
    Erases (Expr.mapNodes .withoutSpan) (exprWithin bound) (exprWithin bound) := by
  induction bound with
  | zero => exact .fail _
  | succ bound ih =>
      have hoperand := negation_erases (suffixed_erases ih bound) (bound + 1)
      exact leftAssoc_erases (leftAssoc_erases (leftAssoc_erases (leftAssoc_erases hoperand _ _) _ _) _ _) _ _

end

section
variable {nested nested' : Parser Stmt} {value value' : Parser Expr} {start : Span}

theorem condition_erases (hvalue : Erases (Expr.mapNodes .withoutSpan) value value') :
    Erases (Expr.mapNodes .withoutSpan) (condition value) (condition value') :=
  (Erases.require _ _).bind fun _ => hvalue.bind fun cond => (Erases.require _ _).bind fun _ => .pure cond

theorem assignment_erases (hvalue : Erases (Expr.mapNodes .withoutSpan) value value') (start : Span) :
    Erases (Stmt.mapNodes .withoutSpan) (assignment value start) (assignment value' .origin) := by
  refine Erases.identifier.bind fun target => (Erases.accept _).bind fun _ => .ite ?_ ?_
  · refine hvalue.bind fun index => (Erases.require _ _).bind fun _ => (Erases.require _ _).bind fun _ => ?_
    refine hvalue.bind fun element => (Erases.require _ _).bind fun _ => (Erases.mark start).bind fun node => ?_
    exact .pure (Stmt.assignElement node target index element)
  · refine (Erases.require _ _).bind fun _ => hvalue.bind fun e => (Erases.require _ _).bind fun _ => ?_
    exact (Erases.mark start).bind fun node => .pure (Stmt.assign node target e)

theorem wordStmt_erases (hnested : Erases (Stmt.mapNodes .withoutSpan) nested nested')
    (hvalue : Erases (Expr.mapNodes .withoutSpan) value value') (start : Span) (text : String) :
    Erases (Stmt.mapNodes .withoutSpan) (wordStmt nested value start text) (wordStmt nested' value' .origin text) := by
  unfold wordStmt
  split
  · refine Erases.advance.bind fun _ => (condition_erases hvalue).bind fun cond => hnested.bind fun thenBranch => ?_
    refine (Erases.require _ _).bind fun _ => hnested.bind fun elseBranch => (Erases.mark start).bind fun node => ?_
    exact .pure (Stmt.ifElse node cond thenBranch elseBranch)
  · refine Erases.advance.bind fun _ => (condition_erases hvalue).bind fun cond => hnested.bind fun body => ?_
    exact (Erases.mark start).bind fun node => .pure (Stmt.loop node cond body)
  · exact .fail _
  · exact assignment_erases hvalue start

theorem stmtForm_erases (hnested : Erases (Stmt.mapNodes .withoutSpan) nested nested')
    (hvalue : Erases (Expr.mapNodes .withoutSpan) value value') (bound : Nat) :
    Erases (Stmt.mapNodes .withoutSpan) (stmtForm nested value bound) (stmtForm nested' value' bound) := by
  refine Erases.here.bind fun start => Erases.peek?.bind fun token => ?_
  split
  · refine Erases.advance.bind fun _ => (manyUntil_erases hnested _ _ bound).bind fun body => ?_
    refine (Erases.require _ _).bind fun _ => (Erases.mark start).bind fun node => ?_
    rw [← Stmt.mapNodesAll_eq]
    exact .pure (Stmt.block node body)
  · refine Erases.advance.bind fun _ => (condition_erases hvalue).bind fun arg => (Erases.require _ _).bind fun _ => ?_
    exact (Erases.mark start).bind fun node => .pure (Stmt.print node arg)
  · exact wordStmt_erases hnested hvalue start _
  · exact .fail _

theorem stmtWithin_erases (bound : Nat) :
    Erases (Stmt.mapNodes .withoutSpan) (stmtWithin bound) (stmtWithin bound) := by
  induction bound with
  | zero => exact .fail _
  | succ bound ih => exact stmtForm_erases ih (exprWithin_erases bound) bound

end

theorem type_erases : Erases (fun ty => ty) type type := by
  refine (Erases.accept _).bind fun _ => .ite ?_ ((Erases.accept _).bind fun _ => .ite (.pure Ty.boolean) ?_)
  · refine (Erases.accept _).bind fun _ => .ite ?_ (.pure Ty.int)
    exact (Erases.require _ _).bind fun _ => .pure Ty.intArray
  · refine .choose (Cursor.identifierAt_withoutSpans · 0) ?_ (.fail _)
    exact Erases.identifier.bind fun C => .pure (Ty.object C)

theorem formal_erases : Erases (VarDecl.mapNodes .withoutSpan) formal formal := by
  refine Erases.here.bind fun start => type_erases.bind fun ty => Erases.identifier.bind fun name => ?_
  exact (Erases.mark start).bind fun node => .pure (VarDecl.mk node ty name)

theorem varDecl_erases : Erases (VarDecl.mapNodes .withoutSpan) varDecl varDecl := by
  refine Erases.here.bind fun start => type_erases.bind fun ty => Erases.identifier.bind fun name => ?_
  exact (Erases.require _ _).bind fun _ => (Erases.mark start).bind fun node => .pure (VarDecl.mk node ty name)

theorem methodDecl_erases (bound : Nat) :
    Erases (MethodDecl.mapNodes .withoutSpan) (methodDecl bound) (methodDecl bound) := by
  refine Erases.here.bind fun start => (Erases.accept _).bind fun _ => type_erases.bind fun returnType => ?_
  refine Erases.identifier.bind fun name => (parenthesised_erases formal_erases bound).bind fun formals => ?_
  refine (Erases.require _ _).bind fun _ => ?_
  refine (many_erases varDecl_erases Cursor.startsVarDecl_withoutSpans bound).bind fun locals => ?_
  refine (manyUntil_erases (stmtWithin_erases bound) _ _ bound).bind fun body => ?_
  refine (Erases.require _ _).bind fun _ => (exprWithin_erases bound).bind fun result => ?_
  refine (Erases.require _ _).bind fun _ => (Erases.require _ _).bind fun _ => (Erases.mark start).bind fun node => ?_
  rw [← Stmt.mapNodesAll_eq]
  exact .pure (MethodDecl.mk node returnType name formals locals body result)

theorem member_erases (bound : Nat) : Erases (MethodDecl.mapNodes .withoutSpan) (member bound) (member bound) :=
  .choose Cursor.startsField_withoutSpans (.fail _) (methodDecl_erases bound)

theorem superclass_erases : Erases (fun C => C) superclass superclass :=
  (Erases.accept _).bind fun _ => .ite (Erases.identifier.bind fun C => .pure (some C)) (.pure none)

theorem classDecl_erases (bound : Nat) :
    Erases (ClassDecl.mapNodes .withoutSpan) (classDecl bound) (classDecl bound) := by
  refine Erases.here.bind fun start => (Erases.require _ _).bind fun _ => Erases.identifier.bind fun name => ?_
  refine superclass_erases.bind fun superName => (Erases.require _ _).bind fun _ => ?_
  refine (many_erases varDecl_erases Cursor.startsField_withoutSpans bound).bind fun fields => ?_
  refine (manyUntil_erases (member_erases bound) _ _ bound).bind fun methods => (Erases.require _ _).bind fun _ => ?_
  exact (Erases.mark start).bind fun node => .pure (ClassDecl.mk node name superName fields methods)

theorem mainClass_erases (bound : Nat) :
    Erases (MainClass.mapNodes .withoutSpan) (mainClass bound) (mainClass bound) := by
  refine Erases.here.bind fun start => (Erases.require _ _).bind fun _ => Erases.identifier.bind fun name => ?_
  refine (Erases.require _ _).bind fun _ => (Erases.require _ _).bind fun _ => (Erases.require _ _).bind fun _ => ?_
  refine (Erases.require _ _).bind fun _ => (Erases.require _ _).bind fun _ => (Erases.require _ _).bind fun _ => ?_
  refine (Erases.require _ _).bind fun _ => (Erases.require _ _).bind fun _ => (Erases.require _ _).bind fun _ => ?_
  refine Erases.identifier.bind fun argsName => (Erases.require _ _).bind fun _ => (Erases.require _ _).bind fun _ => ?_
  refine (stmtWithin_erases bound).bind fun body => ?_
  refine (Erases.require _ _).bind fun _ => (Erases.require _ _).bind fun _ => ?_
  exact (Erases.mark start).bind fun node => .pure (MainClass.mk node name argsName body)

theorem programSpan_withoutSpans (main : MainClass) (classes : List ClassDecl) :
    programSpan (main.mapNodes .withoutSpan) (classes.map (ClassDecl.mapNodes .withoutSpan)) = .origin := by
  rw [programSpan, List.getLast?_map]
  cases classes.getLast? <;> rfl

theorem programWithin_erases (bound : Nat) :
    Erases Program.withoutSpans (programWithin bound) (programWithin bound) := by
  have hmore : ∀ c : Cursor, (!c.withoutSpans.atEnd) = !c.atEnd := fun c => by rw [Cursor.atEnd_withoutSpans]
  refine (mainClass_erases bound).bind fun main => ?_
  refine (many_erases (classDecl_erases bound) hmore bound).bind fun classes => ?_
  rw [programSpan_withoutSpans]
  exact .pure (Program.mk main classes (programSpan main classes))

/-- A program is read off lexemes without spans as it is read off the lexemes themselves. -/
theorem program_erases : Erases Program.withoutSpans program program := by
  refine Erases.get.bind fun c => ?_
  have hlength : c.withoutSpans.rest.length = c.rest.length := by rw [Cursor.withoutSpans, List.length_map]
  rw [hlength]
  exact programWithin_erases _

end Parser

end Demitasse
