import Demitasse.Proofs.Onward

/-! Progress of the parser. From every place of every list of lexemes, however malformed, the parsers of programs,
classes, methods, variables, statements and expressions come to an end, at a place inside the list that is no earlier,
and later if they succeed. None of their loops runs on for ever: every round starts with fewer lexemes left. -/

namespace Demitasse

namespace Parser

variable {size bound bound' : Nat} {c : Cursor}

/-- One round of `chain`. -/
def chainBody (operator : Token → Option BinOp) (operand : Parser Expr) (again : Expr → Parser Expr) (left : Expr) :
    Parser Expr := do
  match (← peek?).bind operator with
  | some op =>
    advance
    let right ← operand
    let node ← mark left.span
    again (.binary node op left right)
  | none => return left

/-- One round of `suffixes`. -/
def suffixesBody (nested : Parser Expr) (start : Span) (bound : Nat) (again : Expr → Parser Expr) (e : Expr) :
    Parser Expr := do
  match ← peek? with
  | some .lbracket =>
    advance
    let index ← nested
    expect .rbracket
    let node ← mark start
    again (.element node e index)
  | some .dot =>
    advance
    if seesLength (← get) then
      advance
      let node ← mark start
      again (.length node e)
    else
      let method ← identifier
      let args ← parenthesised nested bound
      let node ← mark start
      again (.call node e method args)
  | _ => return e

/-- One round of `negation`. -/
def negationBody (operand again : Parser Expr) : Parser Expr := do
  let start ← here
  if ← accept .bang then
    let e ← again
    return .not (← mark start) e
  else
    operand

/-- An expression whose inner expressions are read by `nested`. -/
def exprBody (bound : Nat) (nested : Parser Expr) : Parser Expr :=
  let operand := negation (suffixed nested bound) (bound + 1)
  leftAssoc conjunctionOp bound <| leftAssoc comparisonOp bound <|
    leftAssoc sumOp bound <| leftAssoc productOp bound operand

section
variable {operand operand' nested nested' : Parser Expr}

theorem chain_unrolls (operator : Token → Option BinOp) (operand : Parser Expr) :
    Unrolls (chain operator operand) fun _ => chainBody operator operand where
  zero := by
    rintro ⟨rest, last, nextId⟩ left bound r rfl
    rfl
  succ _ _ := rfl

theorem chain_guarded {operator : Token → Option BinOp} (hoperand : Settled size operand operand') :
    Guarded size 0 (fun _ => chainBody operator operand) fun _ => chainBody operator operand' := by
  intro c bound bound' r r' hsize _ _ hr left
  refine .peek? ?_
  cases hpeek : c.peek? with
  | none => exact .pure left
  | some t =>
      rw [Option.bind_some]
      cases operator t with
      | none => exact .pure left
      | some op =>
          refine .read (.advance (Cursor.rest_ne_nil hpeek)) fun _ c₁ hc₁ => ?_
          refine .read (hoperand (by omega)) fun right c₂ hc₂ => .bind (.mark _) fun node c₃ hc₃ => ?_
          exact hr _ c₃ (by omega)

theorem leftAssoc_settled (operator : Token → Option BinOp) (hoperand : Settled size operand operand')
    (hbound : size ≤ bound + 1) (hbound' : size ≤ bound' + 1) :
    Settled size (leftAssoc operator bound operand) (leftAssoc operator bound' operand') := by
  intro c hc
  refine .read (hoperand hc) fun left c₁ hc₁ => ?_
  exact (chain_unrolls operator operand).agree (chain_unrolls operator operand') (chain_guarded hoperand)
    (by omega) (by omega) (by omega) left

theorem wordExpr_agree (hnested : Inner c nested nested') (hc : c.rest ≠ []) (start : Span) (text : String) :
    Agree 1 c (wordExpr nested start text) (wordExpr nested' start text) := by
  have hadvance : Agree 1 c Parser.advance Parser.advance := .advance hc
  rw [wordExpr, wordExpr]
  split
  · exact .read hadvance fun _ _ _ => .bind (.mark start) fun _ _ _ => .pure _
  · exact .read hadvance fun _ _ _ => .bind (.mark start) fun _ _ _ => .pure _
  · exact .read hadvance fun _ _ _ => .bind (.mark start) fun _ _ _ => .pure _
  · refine .read hadvance fun _ c₁ hc₁ => .accept (fun hc₂ => ?_) fun _ => ?_
    · refine .read (.require _ _) fun _ c₃ hc₃ => ?_
      refine .read (hnested (by omega)) fun size _ _ => .read (.require _ _) fun _ _ _ => ?_
      exact .bind (.mark start) fun _ _ _ => .pure _
    · refine .read .identifier fun _ _ _ => .read (.require _ _) fun _ _ _ => .read (.require _ _) fun _ _ _ => ?_
      exact .bind (.mark start) fun _ _ _ => .pure _
  · exact .fail _
  · exact .read hadvance fun _ _ _ => .bind (.mark start) fun _ _ _ => .pure _

theorem primary_agree (hnested : Inner c nested nested') : Agree 1 c (primary nested) (primary nested') := by
  refine .here (.peek? ?_)
  split
  · rename_i value hpeek
    refine .read (.advance (Cursor.rest_ne_nil hpeek)) fun _ _ _ => .ite (fun _ => ?_) fun _ => .failAt _ _
    exact .bind (.mark _) fun _ _ _ => .pure _
  · rename_i hpeek
    refine .read (.advance (Cursor.rest_ne_nil hpeek)) fun _ c₁ hc₁ => ?_
    exact .read (hnested (by omega)) fun inner _ _ => .read (.require _ _) fun _ _ _ => .pure inner
  · rename_i text hpeek
    exact wordExpr_agree hnested (Cursor.rest_ne_nil hpeek) _ text
  · exact .fail _

theorem suffixes_unrolls (nested : Parser Expr) (start : Span) :
    Unrolls (suffixes nested start) (suffixesBody nested start) where
  zero := by
    rintro ⟨rest, last, nextId⟩ e bound r rfl
    rfl
  succ _ _ := rfl

theorem suffixes_guarded {start : Span} (hnested : Settled size nested nested') :
    Guarded size 0 (suffixesBody nested start) (suffixesBody nested' start) := by
  intro c bound bound' r r' hsize hbound hbound' hr e
  refine .peek? ?_
  split
  · rename_i hpeek
    refine .read (.advance (Cursor.rest_ne_nil hpeek)) fun _ c₁ hc₁ => ?_
    refine .read (hnested (by omega)) fun index c₂ hc₂ => .read (.require _ _) fun _ c₃ hc₃ => ?_
    refine .bind (.mark start) fun node c₄ hc₄ => hr _ c₄ ?_
    omega
  · rename_i hpeek
    refine .read (.advance (Cursor.rest_ne_nil hpeek)) fun _ c₁ hc₁ => .get (.ite (fun hlength => ?_) fun _ => ?_)
    · have hword : c₁.peek? = some (.word "length") := Cursor.sees_iff.mp (Bool.and_eq_true_iff.mp hlength).1
      refine .read (.advance (Cursor.rest_ne_nil hword)) fun _ c₂ hc₂ => .bind (.mark start) fun node c₃ hc₃ => hr _ c₃ ?_
      omega
    · refine .read .identifier fun method c₂ hc₂ => ?_
      refine .read (parenthesised_agree hnested (by omega) (by omega) (by omega)) fun args c₃ hc₃ => ?_
      refine .bind (.mark start) fun node c₄ hc₄ => hr _ c₄ ?_
      omega
  · exact .pure e

theorem suffixed_agree (hnested : Inner c nested nested') (hbound : c.rest.length ≤ bound + 1)
    (hbound' : c.rest.length ≤ bound' + 1) : Agree 1 c (suffixed nested bound) (suffixed nested' bound') := by
  refine .here (.read (primary_agree hnested) fun e c₁ hc₁ => ?_)
  have hnested' : Settled c₁.rest.length nested nested' := hnested.settled hc₁
  exact (suffixes_unrolls nested _).agree (suffixes_unrolls nested' _)
    (suffixes_guarded hnested') (Nat.le_refl _) (by omega) (by omega) e

theorem negation_unrolls (operand : Parser Expr) :
    Unrolls (fun bound (_ : Unit) => negation operand bound) fun _ r _ => negationBody operand (r ()) where
  zero := by
    rintro ⟨rest, last, nextId⟩ i bound r rfl
    rfl
  succ _ _ := rfl

theorem negation_guarded (hoperand : Settled size operand operand') :
    Guarded size 1 (fun _ (r : Unit → Parser Expr) _ => negationBody operand (r ()))
      fun _ r _ => negationBody operand' (r ()) := by
  intro c bound bound' r r' hsize _ _ hr i
  refine .here (.accept (fun hc₁ => ?_) fun _ => hoperand hsize)
  exact .bind ((hr () _ (by omega)).mono (Nat.zero_le 1)) fun e _ _ => .bind (.mark _) fun _ _ _ => .pure _

/-- The operands of products. -/
theorem operand_settled (hnested : Inner c nested nested') (hbound : c.rest.length ≤ bound + 1)
    (hbound' : c.rest.length ≤ bound' + 1) : Settled c.rest.length
      (negation (suffixed nested bound) (bound + 1)) (negation (suffixed nested' bound') (bound' + 1)) := by
  have hsuffixed : Settled c.rest.length (suffixed nested bound) (suffixed nested' bound') :=
    fun c' hc' => suffixed_agree (fun c'' hlt => hnested (by omega)) (by omega) (by omega)
  intro c' hc'
  exact (negation_unrolls _).agree (negation_unrolls _) (negation_guarded hsuffixed) hc' (by omega) (by omega) ()

theorem exprBody_agree (hnested : Inner c nested nested') (hbound : c.rest.length ≤ bound + 1)
    (hbound' : c.rest.length ≤ bound' + 1) : Agree 1 c (exprBody bound nested) (exprBody bound' nested') := by
  -- The levels all start where the expression does; only a primary expression reads on before it calls `nested`.
  have hproduct := leftAssoc_settled productOp (operand_settled hnested hbound hbound') hbound hbound'
  have hsum := leftAssoc_settled sumOp hproduct hbound hbound'
  have hcomparison := leftAssoc_settled comparisonOp hsum hbound hbound'
  exact leftAssoc_settled conjunctionOp hcomparison hbound hbound' (Nat.le_refl _)

end

theorem exprWithin_unrolls :
    Unrolls (fun bound (_ : Unit) => exprWithin bound) fun bound r _ => exprBody bound (r ()) where
  zero := by
    rintro ⟨rest, last, nextId⟩ i bound r rfl
    rfl
  succ _ _ := rfl

theorem expr_guarded (size : Nat) :
    Guarded size 1 (fun bound (r : Unit → Parser Expr) _ => exprBody bound (r ()))
      fun bound r _ => exprBody bound (r ()) :=
  fun _ _ _ _ _ _ hbound hbound' hr _ => exprBody_agree (fun c' hlt => hr () c' hlt) hbound hbound'

theorem exprWithin_settled (hbound : size ≤ bound) (hbound' : size ≤ bound') :
    Settled size (exprWithin bound) (exprWithin bound') :=
  fun _ hc => exprWithin_unrolls.agree exprWithin_unrolls (expr_guarded size) hc (by omega) (by omega) ()

section
variable {nested nested' : Parser Stmt} {value value' : Parser Expr}

theorem condition_agree (hvalue : Inner c value value') : Agree 1 c (condition value) (condition value') := by
  refine .read (.require _ _) fun _ c₁ hc₁ => ?_
  exact .read (hvalue (by omega)) fun cond _ _ => .read (.require _ _) fun _ _ _ => .pure cond

theorem assignment_agree (hvalue : Inner c value value') (start : Span) :
    Agree 1 c (assignment value start) (assignment value' start) := by
  refine .read .identifier fun target c₁ hc₁ => .accept (fun hc₂ => ?_) fun _ => ?_
  · refine .read (hvalue (by omega)) fun index c₃ hc₃ => .read (.require _ _) fun _ c₄ hc₄ => ?_
    refine .read (.require _ _) fun _ c₅ hc₅ => ?_
    refine .read (hvalue (by omega)) fun element _ _ => .read (.require _ _) fun _ _ _ => ?_
    exact .bind (.mark start) fun _ _ _ => .pure _
  · refine .read (.require _ _) fun _ c₂ hc₂ => ?_
    refine .read (hvalue (by omega)) fun e _ _ => .read (.require _ _) fun _ _ _ => ?_
    exact .bind (.mark start) fun _ _ _ => .pure _

theorem wordStmt_agree (hnested : Inner c nested nested') (hvalue : Inner c value value') (hc : c.rest ≠ [])
    (start : Span) (text : String) :
    Agree 1 c (wordStmt nested value start text) (wordStmt nested' value' start text) := by
  rw [wordStmt, wordStmt]
  split
  · refine .read (.advance hc) fun _ c₁ hc₁ => ?_
    refine .read (condition_agree fun c' hlt => hvalue (by omega)) fun cond c₂ hc₂ => ?_
    refine .read (hnested (by omega)) fun thenBranch c₃ hc₃ => .read (.require _ _) fun _ c₄ hc₄ => ?_
    exact .read (hnested (by omega)) fun elseBranch _ _ => .bind (.mark start) fun _ _ _ => .pure _
  · refine .read (.advance hc) fun _ c₁ hc₁ => ?_
    refine .read (condition_agree fun c' hlt => hvalue (by omega)) fun cond c₂ hc₂ => ?_
    exact .read (hnested (by omega)) fun body _ _ => .bind (.mark start) fun _ _ _ => .pure _
  · exact .fail _
  · exact assignment_agree hvalue start

theorem stmtForm_agree (hnested : Inner c nested nested') (hvalue : Inner c value value')
    (hbound : c.rest.length ≤ bound + 1) (hbound' : c.rest.length ≤ bound' + 1) :
    Agree 1 c (stmtForm nested value bound) (stmtForm nested' value' bound') := by
  refine .here (.peek? ?_)
  split
  · rename_i hpeek
    refine .read (.advance (Cursor.rest_ne_nil hpeek)) fun _ c₁ hc₁ => ?_
    have hbody : Settled c₁.rest.length nested nested' := hnested.settled (by omega)
    refine .bind (manyUntil_agree hbody (Nat.le_refl _) (by omega) (by omega) _ _) fun body _ _ => ?_
    exact .read (.require _ _) fun _ _ _ => .bind (.mark _) fun _ _ _ => .pure _
  · rename_i hpeek
    refine .read (.advance (Cursor.rest_ne_nil hpeek)) fun _ c₁ hc₁ => ?_
    refine .read (condition_agree fun c' hlt => hvalue (by omega)) fun arg _ _ => .read (.require _ _) fun _ _ _ => ?_
    exact .bind (.mark _) fun _ _ _ => .pure _
  · rename_i text hpeek
    exact wordStmt_agree hnested hvalue (Cursor.rest_ne_nil hpeek) _ text
  · exact .fail _

end

theorem stmtWithin_unrolls :
    Unrolls (fun bound (_ : Unit) => stmtWithin bound) fun bound r _ => stmtForm (r ()) (exprWithin bound) bound where
  zero := by
    rintro ⟨rest, last, nextId⟩ i bound r rfl
    rfl
  succ _ _ := rfl

theorem stmt_guarded (size : Nat) :
    Guarded size 1 (fun bound (r : Unit → Parser Stmt) _ => stmtForm (r ()) (exprWithin bound) bound)
      fun bound r _ => stmtForm (r ()) (exprWithin bound) bound := by
  intro c bound bound' r r' _ hbound hbound' hr _
  have hvalue : Inner c (exprWithin bound) (exprWithin bound') :=
    fun c' hlt => exprWithin_settled (by omega) (by omega) (Nat.le_refl c'.rest.length)
  exact stmtForm_agree (fun c' hlt => hr () c' hlt) hvalue hbound hbound'

theorem stmtWithin_settled (hbound : size ≤ bound) (hbound' : size ≤ bound') :
    Settled size (stmtWithin bound) (stmtWithin bound') :=
  fun _ hc => stmtWithin_unrolls.agree stmtWithin_unrolls (stmt_guarded size) hc (by omega) (by omega) ()

/-! ### Declarations -/

theorem type_agree (c : Cursor) : Agree 1 c type type := by
  refine .accept (fun _ => .accept (fun _ => ?_) fun _ => .pure _) fun _ => .accept (fun _ => .pure _) fun _ => ?_
  · exact .read (.require _ _) fun _ _ _ => .pure _
  · exact .get (.ite (fun _ => .read .identifier fun _ _ _ => .pure _) fun _ => .fail _)

theorem formal_agree (c : Cursor) : Agree 1 c formal formal := by
  refine .here (.read (type_agree c) fun ty _ _ => .read .identifier fun name _ _ => ?_)
  exact .bind (.mark _) fun _ _ _ => .pure _

theorem varDecl_agree (c : Cursor) : Agree 1 c varDecl varDecl := by
  refine .here (.read (type_agree c) fun ty _ _ => .read .identifier fun name _ _ => ?_)
  exact .read (.require _ _) fun _ _ _ => .bind (.mark _) fun _ _ _ => .pure _

theorem startsVarDecl_at_end (c : Cursor) (hc : c.rest = []) : c.startsVarDecl = false := by
  simp [Cursor.startsVarDecl, Cursor.typeWidth, Cursor.sees, Cursor.peek?, Cursor.identifierAt, Cursor.token?, hc]

theorem startsField_at_end (c : Cursor) (hc : c.rest = []) : c.startsField = false := by
  simp [Cursor.startsField, startsVarDecl_at_end c hc]

theorem methodDecl_settled (hbound : size ≤ bound) (hbound' : size ≤ bound') :
    Settled size (methodDecl bound) (methodDecl bound') := by
  intro c hc
  refine .here (.bind (.optional _) fun _ c₁ hc₁ => .read (type_agree c₁) fun returnType c₂ hc₂ => ?_)
  refine .read .identifier fun name c₃ hc₃ => ?_
  have hformals : Agree 1 c₃ (parenthesised formal bound) (parenthesised formal bound') :=
    parenthesised_agree (fun c' _ => formal_agree c') (Nat.le_refl _) (by omega) (by omega)
  refine .read hformals fun formals c₄ hc₄ => .read (.require _ _) fun _ c₅ hc₅ => ?_
  have hlocals : Agree 0 c₅ (many Cursor.startsVarDecl varDecl bound) (many Cursor.startsVarDecl varDecl bound') :=
    many_agree (fun c' _ => varDecl_agree c') (Nat.le_refl _) (by omega) (by omega) startsVarDecl_at_end
  refine .bind hlocals fun locals c₆ hc₆ => ?_
  refine .bind (manyUntil_agree (stmtWithin_settled hbound hbound') (by omega) (by omega) (by omega) _ _) ?_
  refine fun body c₇ hc₇ => .read (.require _ _) fun _ c₈ hc₈ => ?_
  refine .read (exprWithin_settled hbound hbound' (by omega)) fun result _ _ => .read (.require _ _) fun _ _ _ => ?_
  exact .read (.require _ _) fun _ _ _ => .bind (.mark _) fun _ _ _ => .pure _

theorem member_settled (hbound : size ≤ bound) (hbound' : size ≤ bound') :
    Settled size (member bound) (member bound') :=
  fun _ hc => .get (.ite (fun _ => .fail _) fun _ => methodDecl_settled hbound hbound' hc)

theorem superclass_agree (c : Cursor) : Agree 0 c superclass superclass :=
  .accept (fun _ => .read .identifier fun _ _ _ => .pure _) fun _ => .pure _

theorem classDecl_settled (hbound : size ≤ bound) (hbound' : size ≤ bound') :
    Settled size (classDecl bound) (classDecl bound') := by
  intro c hc
  refine .here (.read (.require _ _) fun _ c₁ hc₁ => .read .identifier fun name c₂ hc₂ => ?_)
  refine .bind (superclass_agree c₂) fun superName c₃ hc₃ => .read (.require _ _) fun _ c₄ hc₄ => ?_
  have hfields : Agree 0 c₄ (many Cursor.startsField varDecl bound) (many Cursor.startsField varDecl bound') :=
    many_agree (fun c' _ => varDecl_agree c') (Nat.le_refl _) (by omega) (by omega) startsField_at_end
  refine .bind hfields fun fields c₅ hc₅ => ?_
  refine .bind (manyUntil_agree (member_settled hbound hbound') (by omega) (by omega) (by omega) _ _) ?_
  refine fun methods _ _ => .read (.require _ _) fun _ _ _ => ?_
  exact .bind (.mark _) fun _ _ _ => .pure _

theorem mainClass_settled (hbound : size ≤ bound) (hbound' : size ≤ bound') :
    Settled size (mainClass bound) (mainClass bound') := by
  intro c hc
  refine .here (.read (.require _ _) fun _ c₁ hc₁ => .read .identifier fun name c₂ hc₂ => ?_)
  refine .read (.require _ _) fun _ c₃ hc₃ => .read (.require _ _) fun _ c₄ hc₄ => ?_
  refine .read (.require _ _) fun _ c₅ hc₅ => .read (.require _ _) fun _ c₆ hc₆ => ?_
  refine .read (.require _ _) fun _ c₇ hc₇ => .read (.require _ _) fun _ c₈ hc₈ => ?_
  refine .read (.require _ _) fun _ c₉ hc₉ => .read (.require _ _) fun _ c₁₀ hc₁₀ => ?_
  refine .read (.require _ _) fun _ c₁₁ hc₁₁ => .read .identifier fun argsName c₁₂ hc₁₂ => ?_
  refine .read (.require _ _) fun _ c₁₃ hc₁₃ => .read (.require _ _) fun _ c₁₄ hc₁₄ => ?_
  refine .read (stmtWithin_settled hbound hbound' (by omega)) fun body _ _ => .read (.require _ _) fun _ _ _ => ?_
  exact .read (.require _ _) fun _ _ _ => .bind (.mark _) fun _ _ _ => .pure _

theorem not_atEnd_at_end (c : Cursor) (hc : c.rest = []) : (!c.atEnd) = false := by
  simp [Cursor.atEnd, hc]

theorem programWithin_settled (hbound : size ≤ bound) (hbound' : size ≤ bound') :
    Settled size (programWithin bound) (programWithin bound') := by
  intro c hc
  refine .read (mainClass_settled hbound hbound' hc) fun main c₁ hc₁ => ?_
  refine .bind (many_agree (classDecl_settled hbound hbound') (by omega) (by omega) (by omega) not_atEnd_at_end) ?_
  exact fun classes _ _ => .pure _

theorem program_agree (c : Cursor) : Agree 1 c program program :=
  .get (programWithin_settled (Nat.le_refl _) (Nat.le_refl _) (Nat.le_refl _))

/-- The operators of a level with the parser of their operands. -/
inductive Operands (bound : Nat) : (Token → Option BinOp) → Parser Expr → Prop
  | product : Operands bound productOp (negation (suffixed (exprWithin bound) bound) (bound + 1))
  | sum {operand : Parser Expr} :
      Operands bound productOp operand → Operands bound sumOp (leftAssoc productOp bound operand)
  | comparison {operand : Parser Expr} :
      Operands bound sumOp operand → Operands bound comparisonOp (leftAssoc sumOp bound operand)
  | conjunction {operand : Parser Expr} :
      Operands bound comparisonOp operand → Operands bound conjunctionOp (leftAssoc comparisonOp bound operand)

theorem Operands.settled {operator : Token → Option BinOp} {operand : Parser Expr} (h : Operands bound operator operand) :
    Settled bound operand operand := by
  induction h with
  | product =>
      intro c hc
      have hnested : Inner c (exprWithin bound) (exprWithin bound) :=
        fun c' hlt => exprWithin_settled (Nat.le_refl bound) (Nat.le_refl bound) (by omega)
      exact operand_settled hnested (by omega) (by omega) (Nat.le_refl _)
  | sum _ ih => exact leftAssoc_settled productOp ih (by omega) (by omega)
  | comparison _ ih => exact leftAssoc_settled sumOp ih (by omega) (by omega)
  | conjunction _ ih => exact leftAssoc_settled comparisonOp ih (by omega) (by omega)

/-- The loops and the recursive parsers that a program is read by. Each is a family of parsers with a bound, with
the parser that makes one round of it. -/
inductive Recurs (bound : Nat) : {ι α : Type} → (least : Nat) → (Nat → ι → Parser α) →
    (Nat → (ι → Parser α) → ι → Parser α) → Prop
  | classes : Recurs bound 0 (fun n (_ : Unit) => many (fun c => !c.atEnd) (classDecl bound) n)
      fun _ r _ => manyBody (fun c => !c.atEnd) (classDecl bound) (r ())
  | fields : Recurs bound 0 (fun n (_ : Unit) => many Cursor.startsField varDecl n)
      fun _ r _ => manyBody Cursor.startsField varDecl (r ())
  | methods (name : String) : Recurs bound 0
      (fun n (_ : Unit) => manyUntil .rbrace (.unterminatedClass name) (member bound) n)
      fun _ r _ => manyUntilBody .rbrace (.unterminatedClass name) (member bound) (r ())
  | formals : Recurs bound 1 (fun n (_ : Unit) => separated formal n) fun _ r _ => separatedBody formal (r ())
  | locals : Recurs bound 0 (fun n (_ : Unit) => many Cursor.startsVarDecl varDecl n)
      fun _ r _ => manyBody Cursor.startsVarDecl varDecl (r ())
  | methodBody (name : String) : Recurs bound 0
      (fun n (_ : Unit) => manyUntil (.ofKeyword .kwReturn) (.missingReturn name) (stmtWithin bound) n)
      fun _ r _ => manyUntilBody (.ofKeyword .kwReturn) (.missingReturn name) (stmtWithin bound) (r ())
  | block : Recurs bound 0 (fun n (_ : Unit) => manyUntil .rbrace .unterminatedBlock (stmtWithin bound) n)
      fun _ r _ => manyUntilBody .rbrace .unterminatedBlock (stmtWithin bound) (r ())
  | statement : Recurs bound 1 (fun n (_ : Unit) => stmtWithin n) fun n r _ => stmtForm (r ()) (exprWithin n) n
  | arguments : Recurs bound 1 (fun n (_ : Unit) => separated (exprWithin bound) n)
      fun _ r _ => separatedBody (exprWithin bound) (r ())
  | operators {operator : Token → Option BinOp} {operand : Parser Expr} : Operands bound operator operand →
      Recurs bound 0 (chain operator operand) fun _ => chainBody operator operand
  | suffixes (start : Span) : Recurs bound 0 (suffixes (exprWithin bound) start) (suffixesBody (exprWithin bound) start)
  | negations : Recurs bound 1 (fun n (_ : Unit) => negation (suffixed (exprWithin bound) bound) n)
      fun _ r _ => negationBody (suffixed (exprWithin bound) bound) (r ())
  | expression : Recurs bound 1 (fun n (_ : Unit) => exprWithin n) fun n r _ => exprBody n (r ())

theorem Recurs.halts {ι α : Type} {least : Nat} {p : Nat → ι → Parser α} {body : Nat → (ι → Parser α) → ι → Parser α}
    (h : Recurs bound least p body) : Halts bound least p body := by
  have hexpr : Settled bound (exprWithin bound) (exprWithin bound) := exprWithin_settled (Nat.le_refl _) (Nat.le_refl _)
  have hstmt : Settled bound (stmtWithin bound) (stmtWithin bound) := stmtWithin_settled (Nat.le_refl _) (Nat.le_refl _)
  cases h with
  | classes =>
      exact (many_unrolls not_atEnd_at_end _).halts (many_guarded (classDecl_settled (Nat.le_refl _) (Nat.le_refl _)))
  | fields => exact (many_unrolls startsField_at_end _).halts (many_guarded fun c _ => varDecl_agree c)
  | methods name =>
      exact (manyUntil_unrolls _ _ _).halts (manyUntil_guarded (member_settled (Nat.le_refl _) (Nat.le_refl _)))
  | formals =>
      have hformal : Settled bound formal formal := fun c _ => formal_agree c
      exact (separated_unrolls hformal).halts (separated_guarded hformal)
  | locals => exact (many_unrolls startsVarDecl_at_end _).halts (many_guarded fun c _ => varDecl_agree c)
  | methodBody name => exact (manyUntil_unrolls _ _ _).halts (manyUntil_guarded hstmt)
  | block => exact (manyUntil_unrolls _ _ _).halts (manyUntil_guarded hstmt)
  | statement => exact stmtWithin_unrolls.halts (stmt_guarded bound)
  | arguments => exact (separated_unrolls hexpr).halts (separated_guarded hexpr)
  | operators h => exact (chain_unrolls _ _).halts (chain_guarded h.settled)
  | suffixes start => exact (suffixes_unrolls _ start).halts (suffixes_guarded hexpr)
  | negations =>
      have hsuffixed : Settled bound (suffixed (exprWithin bound) bound) (suffixed (exprWithin bound) bound) :=
        fun c hc => suffixed_agree (fun c' hlt => hexpr (by omega)) (by omega) (by omega)
      exact (negation_unrolls _).halts (negation_guarded hsuffixed)
  | expression => exact exprWithin_unrolls.halts (expr_guarded bound)

end Parser

/-- The span of the lexeme in front of place `pos`. -/
def spanBefore (lexemes : List Lexeme) : (pos : Nat) → Span
  | 0 => .origin
  | k + 1 => (lexemes[k]?.map (·.span)).getD .origin

/-- The cursor behind the first `pos` lexemes. -/
def Cursor.place (lexemes : List Lexeme) (pos : Nat) (id : NodeId) : Cursor :=
  ⟨lexemes.drop pos, spanBefore lexemes pos, id⟩

/-- The cursor stands at place `pos`, which is inside the text, and if a lexeme was read it is the one in front of that
place. -/
structure Cursor.StandsAt (lexemes : List Lexeme) (pos : Nat) (c : Cursor) : Prop where
  eq_place : c = place lexemes pos c.nextId
  le_length : pos ≤ lexemes.length
  last_eq : 0 < pos → ∃ h : pos - 1 < lexemes.length, c.last = lexemes[pos - 1].span

theorem spanBefore_add {lexemes read rest : List Lexeme} {pos : Nat} (h : lexemes.drop pos = read ++ rest) :
    spanBefore lexemes (pos + read.length) = read.foldl (fun _ l => l.span) (spanBefore lexemes pos) := by
  induction read generalizing pos with
  | nil => rfl
  | cons l read ih =>
      have hget : lexemes[pos]? = some l := by
        rw [← List.head?_drop, h]
        rfl
      have hdrop : lexemes.drop (pos + 1) = read ++ rest := by
        rw [← List.tail_drop, h]
        rfl
      have hspan : spanBefore lexemes (pos + 1) = l.span := by
        rw [spanBefore, hget]
        rfl
      rw [List.length_cons, Nat.add_comm read.length 1, ← Nat.add_assoc, ih hdrop, hspan, List.foldl_cons]

theorem Cursor.Onward.standsAt {lexemes : List Lexeme} {pos least : Nat} {id : NodeId} {c : Cursor}
    (h : (Cursor.place lexemes pos id).Onward least c) (hpos : pos ≤ lexemes.length) :
    ∃ pos', pos + least ≤ pos' ∧ c.StandsAt lexemes pos' := by
  obtain ⟨⟨read, hrest, hleast, hlast⟩, -⟩ := h
  have hdrop : lexemes.drop pos = read ++ c.rest := hrest
  have hlength : pos + read.length ≤ lexemes.length := by
    have := congrArg List.length hdrop
    rw [List.length_drop, List.length_append] at this
    omega
  have hlast' : c.last = spanBefore lexemes (pos + read.length) := hlast.trans (spanBefore_add hdrop).symm
  refine ⟨pos + read.length, by omega, ?_, hlength, fun hlt => ?_⟩
  · have hrest' : c.rest = lexemes.drop (pos + read.length) := by
      rw [← List.drop_drop, hdrop, List.drop_left]
    rw [Cursor.place, ← hrest', ← hlast']
  · obtain ⟨k, hk⟩ := Nat.exists_eq_succ_of_ne_zero (Nat.ne_of_gt hlt)
    have hlt' : k < lexemes.length := by omega
    simp only [hk, Nat.succ_eq_add_one, Nat.add_sub_cancel] at hlast' ⊢
    refine ⟨hlt', ?_⟩
    rw [hlast', spanBefore, List.getElem?_eq_getElem hlt']
    rfl

namespace Parser

variable {α : Type} {lexemes : List Lexeme} {pos : Nat} {id : NodeId} {p : Nat → Parser α}

/-- From place `pos` on, with `id` the next free identity, the parsers `p` have one outcome under all bounds that are as
large as the number of lexemes left. It leaves the cursor no earlier in the text, and later if it is a success, and
takes no identity back. -/
def Ends (lexemes : List Lexeme) (pos : Nat) (id : NodeId) (p : Nat → Parser α) : Prop :=
  ∃ outcome, (∀ bound, lexemes.length - pos ≤ bound → (p bound).run (.place lexemes pos id) = outcome) ∧
    match outcome with
    | .ok _ c => id ≤ c.nextId ∧ ∃ pos', pos < pos' ∧ c.StandsAt lexemes pos'
    | .error _ c => id ≤ c.nextId ∧ ∃ pos', pos ≤ pos' ∧ c.StandsAt lexemes pos'

theorem ends_of_settled (hpos : pos ≤ lexemes.length)
    (h : ∀ bound, lexemes.length - pos ≤ bound → Settled (lexemes.length - pos) (p (lexemes.length - pos)) (p bound)) :
    Ends lexemes pos id p := by
  have hlength : (Cursor.place lexemes pos id).rest.length ≤ lexemes.length - pos := Nat.le_of_eq (List.length_drop ..)
  refine ⟨_, fun bound hbound => (h bound hbound hlength).1.symm, ?_⟩
  have hleaves := (h _ (Nat.le_refl _) hlength).2
  cases hrun : (p (lexemes.length - pos)).run (.place lexemes pos id) with
  | ok a c =>
      rw [hrun] at hleaves
      exact ⟨hleaves.nextId, hleaves.standsAt hpos⟩
  | error e c =>
      rw [hrun] at hleaves
      exact ⟨hleaves.nextId, hleaves.standsAt hpos⟩

/-- From every place of every text the parsers come to an end inside the text, and so do all their loops. -/
theorem ends_inside_text (lexemes : List Lexeme) (pos : Nat) (id : NodeId) (hpos : pos ≤ lexemes.length) :
    Ends lexemes pos id (fun _ => program) ∧ Ends lexemes pos id programWithin ∧ Ends lexemes pos id classDecl ∧
      Ends lexemes pos id methodDecl ∧ Ends lexemes pos id (fun _ => varDecl) ∧ Ends lexemes pos id stmtWithin ∧
      Ends lexemes pos id exprWithin ∧
      ∀ (bound : Nat) {ι α : Type} {least : Nat} {p : Nat → ι → Parser α} {body : Nat → (ι → Parser α) → ι → Parser α},
        Recurs bound least p body → Halts bound least p body :=
  ⟨ends_of_settled hpos fun _ _ c _ => program_agree c,
    ends_of_settled hpos fun _ => programWithin_settled (Nat.le_refl _),
    ends_of_settled hpos fun _ => classDecl_settled (Nat.le_refl _),
    ends_of_settled hpos fun _ => methodDecl_settled (Nat.le_refl _),
    ends_of_settled hpos fun _ _ c _ => varDecl_agree c,
    ends_of_settled hpos fun _ => stmtWithin_settled (Nat.le_refl _),
    ends_of_settled hpos fun _ => exprWithin_settled (Nat.le_refl _),
    fun _ _ _ _ _ _ h => h.halts⟩

/-- The text of a block that breaks off in an assignment. -/
def brokenBlock : List Lexeme :=
  [⟨.lbrace, ⟨0, 1⟩⟩, ⟨.word "x", ⟨2, 3⟩⟩, ⟨.assign, ⟨4, 5⟩⟩, ⟨.bang, ⟨6, 7⟩⟩, ⟨.lparen, ⟨7, 8⟩⟩]

/-- The statement that starts at the second lexeme of a block that breaks off ends in an error behind the last one, and
the loop over the statements of that block ends too. -/
theorem ends_inside_text_brokenBlock : 1 ≤ brokenBlock.length ∧ Ends brokenBlock 1 3 stmtWithin ∧
    (stmtWithin 4).run (.place brokenBlock 1 3) = .error ⟨⟨8, 8⟩, .expectedExpression⟩ (.place brokenBlock 5 3) ∧
    Halts 5 0 (fun n (_ : Unit) => manyUntil .rbrace .unterminatedBlock (stmtWithin 5) n)
      fun _ r _ => manyUntilBody .rbrace .unterminatedBlock (stmtWithin 5) (r ()) :=
  ⟨by decide, (ends_inside_text brokenBlock 1 3 (by decide)).2.2.2.2.2.1, by rfl,
    (ends_inside_text brokenBlock 1 3 (by decide)).2.2.2.2.2.2.2 5 .block⟩

end Parser

end Demitasse
