import Demitasse.Parse.Program
import Demitasse.Program.Visit
import Demitasse.Proofs.Reading

/-! Where the parts of a program stand in its text. A parser that starts behind some byte stays behind it: the nodes
that it makes start there or later, and so does the text that an error is about. -/

namespace Demitasse

/-- No node of a walk starts before byte `k`. -/
def Later (k : Nat) (visits : List Visit) : Prop :=
  ∀ v ∈ visits, ∀ node, v.node? = some node → k ≤ node.span.start

section
variable {k : Nat} {v w : List Visit}

theorem Later.cons_of_some {visit : Visit} {node : Node} (hnode : visit.node? = some node)
    (hk : k ≤ node.span.start) (h : Later k w) : Later k (visit :: w) := by
  refine List.forall_mem_cons.mpr ⟨fun node' hnode' => ?_, h⟩
  cases hnode.symm.trans hnode'
  exact hk

theorem Later.cons_of_none {visit : Visit} (hnode : visit.node? = none) (h : Later k w) : Later k (visit :: w) := by
  refine List.forall_mem_cons.mpr ⟨fun node hnode' => ?_, h⟩
  cases hnode.symm.trans hnode'

theorem later_nil (k : Nat) : Later k [] :=
  List.forall_mem_nil _

theorem Later.append (h : Later k v) (h' : Later k w) : Later k (v ++ w) :=
  List.forall_mem_append.mpr ⟨h, h'⟩

theorem Later.head {visit : Visit} {node : Node} (h : Later k (visit :: w)) (hnode : visit.node? = some node) :
    k ≤ node.span.start :=
  h visit (.head _) node hnode

theorem Later.tail {visit : Visit} (h : Later k (visit :: w)) : Later k w :=
  (List.forall_mem_cons.mp h).2

theorem Later.left (h : Later k (v ++ w)) : Later k v :=
  (List.forall_mem_append.mp h).1

theorem Later.right (h : Later k (v ++ w)) : Later k w :=
  (List.forall_mem_append.mp h).2

theorem Later.of_mem_flatMap {α : Type} {visits : α → List Visit} {as : List α} (h : Later k (as.flatMap visits))
    {a : α} (ha : a ∈ as) : Later k (visits a) :=
  fun v hv => h v (List.mem_flatMap.mpr ⟨a, ha, hv⟩)

theorem Later.flatMap {α : Type} {visits : α → List Visit} {as : List α} (h : ∀ a ∈ as, Later k (visits a)) :
    Later k (as.flatMap visits) := by
  intro visit hvisit
  obtain ⟨a, ha, hmem⟩ := List.mem_flatMap.mp hvisit
  exact h a ha visit hmem

theorem Expr.visits_head (e : Expr) : ∃ rest, e.visits = .expr e.node :: rest := by
  cases e <;> exact ⟨_, rfl⟩

theorem Later.span {e : Expr} (h : Later k e.visits) : k ≤ e.span.start := by
  obtain ⟨rest, hrest⟩ := e.visits_head
  rw [hrest] at h
  exact h.head rfl

theorem Expr.later_visitsAll {es : List Expr} (h : ∀ e ∈ es, Later k e.visits) : Later k (Expr.visitsAll es) := by
  induction es with
  | nil => exact later_nil k
  | cons e rest ih =>
      obtain ⟨he, hrest⟩ := List.forall_mem_cons.mp h
      exact he.append (ih hrest)

theorem Stmt.later_visitsAll {ss : List Stmt} (h : ∀ s ∈ ss, Later k s.visits) : Later k (Stmt.visitsAll ss) := by
  induction ss with
  | nil => exact later_nil k
  | cons s rest ih =>
      obtain ⟨hs, hrest⟩ := List.forall_mem_cons.mp h
      exact hs.append (ih hrest)

end

/-- All lexemes that are left start at byte `k` or later. -/
def Cursor.Ahead (k : Nat) (c : Cursor) : Prop :=
  ∀ l ∈ c.rest, k ≤ l.span.start ∧ k ≤ l.span.stop

/-- What was read last and all lexemes that are left start at byte `k` or later. -/
structure Cursor.Behind (k : Nat) (c : Cursor) : Prop where
  ahead : c.Ahead k
  start : k ≤ c.last.start
  stop : k ≤ c.last.stop

namespace Cursor

variable {k : Nat} {c : Cursor}

theorem Ahead.advance (h : c.Ahead k) (hne : c.rest ≠ []) : c.advance.Behind k := by
  obtain ⟨rest, last, nextId⟩ := c
  cases rest with
  | nil => exact absurd rfl hne
  | cons l rest =>
      obtain ⟨hl, hrest⟩ := List.forall_mem_cons.mp h
      exact ⟨hrest, hl.1, hl.2⟩

theorem Behind.advance (h : c.Behind k) : c.advance.Behind k := by
  by_cases hne : c.rest = []
  · have hadvance : c.advance = c := by rw [Cursor.advance, hne]
    rw [hadvance]
    exact h
  · exact h.ahead.advance hne

theorem Ahead.here (h : c.Ahead k) (hne : c.rest ≠ []) : k ≤ c.here.start := by
  obtain ⟨rest, last, nextId⟩ := c
  cases rest with
  | nil => exact absurd rfl hne
  | cons l rest => exact (h l (.head _)).1

theorem Behind.here (h : c.Behind k) : k ≤ c.here.start := by
  by_cases hne : c.rest = []
  · have hhere : c.here = c.last.after := by rw [Cursor.here, hne]
    rw [hhere]
    exact h.stop
  · exact h.ahead.here hne

end Cursor

namespace Parser

variable {α β : Type} {k : Nat} {c : Cursor} {p : Parser α} {f : α → Parser β} {P : α → Prop} {Q : β → Prop}

/-- From a cursor on, a parser stays behind byte `k`, and `P` holds of what it returns. -/
def Stays (k : Nat) (c : Cursor) (p : Parser α) (P : α → Prop) : Prop :=
  match p.run c with
  | .ok a c' => c'.Behind k ∧ P a
  | .error e _ => k ≤ e.span.start

/-- Wherever it starts behind byte `k`, a parser stays there. -/
def Behind (k : Nat) (p : Parser α) (P : α → Prop) : Prop :=
  ∀ ⦃c⦄, c.Behind k → p.Stays k c P

theorem Stays.bind (hp : p.Stays k c P) (hf : ∀ a, P a → (f a).Behind k Q) : (p >>= f).Stays k c Q := by
  rw [Stays] at hp ⊢
  rw [EStateM.run_bind]
  cases hrun : p.run c with
  | ok a c' =>
      rw [hrun] at hp
      exact hf a hp.2 hp.1
  | error e c' =>
      rw [hrun] at hp
      exact hp

namespace Behind

theorem pure {a : α} (ha : P a) : (Pure.pure a : Parser α).Behind k P :=
  fun _ hc => ⟨hc, ha⟩

theorem bind (hp : p.Behind k P) (hf : ∀ a, P a → (f a).Behind k Q) : (p >>= f).Behind k Q :=
  fun _ hc => (hp hc).bind hf

theorem get : (MonadState.get : Parser Cursor).Behind k fun _ => True :=
  fun _ hc => ⟨hc, trivial⟩

theorem here : Parser.here.Behind k (k ≤ ·.start) :=
  fun _ hc => ⟨hc, hc.here⟩

theorem peek? : Parser.peek?.Behind k fun _ => True :=
  fun _ hc => ⟨hc, trivial⟩

theorem advance : Parser.advance.Behind k fun _ => True :=
  fun _ hc => ⟨hc.advance, trivial⟩

theorem failAt {span : Span} (h : k ≤ span.start) (cause : SyntaxFault) :
    (Parser.failAt span cause : Parser α).Behind k P :=
  fun _ _ => h

theorem fail (cause : SyntaxFault) : (Parser.fail cause : Parser α).Behind k P :=
  here.bind fun _ h => failAt h cause

theorem ite {b : Prop} [Decidable b] {q : Parser α} (hp : p.Behind k P) (hq : q.Behind k P) :
    (if b then p else q).Behind k P := by
  by_cases h : b
  · rw [if_pos h]
    exact hp
  · rw [if_neg h]
    exact hq

theorem accept (t : Token) : (Parser.accept t).Behind k fun _ => True :=
  get.bind fun _ _ => ite (advance.bind fun _ _ => pure trivial) (pure trivial)

theorem require (t : Token) (cause : SyntaxFault) : (Parser.require t cause).Behind k fun _ => True :=
  get.bind fun _ _ => ite advance (fail cause)

theorem identifier : Parser.identifier.Behind k fun _ => True := by
  refine peek?.bind fun token _ => ?_
  split
  · exact ite (advance.bind fun _ _ => pure trivial) (fail _)
  · exact fail _

theorem mark {start : Span} (h : k ≤ start.start) : (Parser.mark start).Behind k (k ≤ ·.span.start) :=
  fun _ hc => ⟨⟨hc.ahead, hc.start, hc.stop⟩, Nat.le_min.mpr ⟨h, hc.start⟩⟩

end Behind

theorem stays_require {t : Token} {cause : SyntaxFault} (h : c.Ahead k) (hne : c.rest ≠ []) :
    (require t cause).Stays k c fun _ => True := by
  change Stays k c (if c.sees t then advance else fail cause) _
  by_cases hsees : c.sees t = true
  · rw [if_pos hsees]
    exact ⟨h.advance hne, trivial⟩
  · rw [if_neg hsees]
    exact h.here hne

section
variable {item : Parser α} (hitem : item.Behind k P)
include hitem

theorem many_behind (more : Cursor → Bool) (bound : Nat) : (many more item bound).Behind k (∀ a ∈ ·, P a) := by
  induction bound with
  | zero => exact .pure (List.forall_mem_nil _)
  | succ bound ih =>
      refine .bind .get fun _ _ => .ite ?_ (.pure (List.forall_mem_nil _))
      refine .bind hitem fun a ha => .bind ih fun rest hrest => ?_
      exact .pure (List.forall_mem_cons.mpr ⟨ha, hrest⟩)

theorem manyUntil_behind (stop : Token) (unfinished : SyntaxFault) (bound : Nat) :
    (manyUntil stop unfinished item bound).Behind k (∀ a ∈ ·, P a) := by
  induction bound with
  | zero => exact .fail unfinished
  | succ bound ih =>
      refine .bind .get fun _ _ => .ite (.pure (List.forall_mem_nil _)) (.ite (.fail unfinished) ?_)
      refine .bind hitem fun a ha => .bind ih fun rest hrest => ?_
      exact .pure (List.forall_mem_cons.mpr ⟨ha, hrest⟩)

theorem separated_behind (bound : Nat) : (separated item bound).Behind k (∀ a ∈ ·, P a) := by
  induction bound with
  | zero => exact .bind hitem fun a ha => .pure (List.forall_mem_singleton.mpr ha)
  | succ bound ih =>
      refine .bind hitem fun a ha => .bind (.accept .comma) fun _ _ => .ite ?_ ?_
      · exact .bind ih fun rest hrest => .pure (List.forall_mem_cons.mpr ⟨ha, hrest⟩)
      · exact .pure (List.forall_mem_singleton.mpr ha)

theorem parenthesised_behind (bound : Nat) : (parenthesised item bound).Behind k (∀ a ∈ ·, P a) := by
  have hitems : ∀ items : List α, (∀ a ∈ items, P a) → Behind k (do expect .rparen; return items) (∀ a ∈ ·, P a) :=
    fun items hitems => .bind (.require _ _) fun _ _ => .pure hitems
  refine .bind (.require _ _) fun _ _ => .bind .get fun _ _ => ?_
  dsimp only
  exact .ite (.bind (.pure (List.forall_mem_nil _)) hitems) (.bind (separated_behind hitem bound) hitems)

end

section
variable {operand nested : Parser Expr} {start : Span}

theorem chain_behind (hoperand : operand.Behind k (Later k ·.visits)) (operator : Token → Option BinOp) (bound : Nat) :
    ∀ {left : Expr}, Later k left.visits → (chain operator operand bound left).Behind k (Later k ·.visits) := by
  induction bound with
  | zero => exact fun hleft => .pure hleft
  | succ bound ih =>
      intro left hleft
      refine .bind .peek? fun token _ => ?_
      cases token.bind operator with
      | none => exact .pure hleft
      | some op =>
          refine .bind .advance fun _ _ => .bind hoperand fun right hright => .bind (.mark hleft.span) fun node hnode => ?_
          exact ih (.cons_of_some rfl hnode (hleft.append hright))

theorem leftAssoc_behind (hoperand : operand.Behind k (Later k ·.visits)) (operator : Token → Option BinOp)
    (bound : Nat) : (leftAssoc operator bound operand).Behind k (Later k ·.visits) :=
  .bind hoperand fun _ hleft => chain_behind hoperand operator bound hleft

/-- A node without parts. -/
theorem leaf_behind (hstart : k ≤ start.start) {f : Node → Expr} (hf : ∀ node, (f node).visits = [.expr node]) :
    (do return f (← mark start)).Behind k (Later k ·.visits) := by
  refine .bind (.mark hstart) fun node hnode => .pure ?_
  rw [hf]
  exact .cons_of_some rfl hnode (later_nil k)

theorem wordExpr_behind (hnested : nested.Behind k (Later k ·.visits)) (hstart : k ≤ start.start) (text : String) :
    (wordExpr nested start text).Behind k (Later k ·.visits) := by
  rw [wordExpr]
  split
  · exact .bind .advance fun _ _ => leaf_behind hstart fun _ => rfl
  · exact .bind .advance fun _ _ => leaf_behind hstart fun _ => rfl
  · exact .bind .advance fun _ _ => leaf_behind hstart fun _ => rfl
  · refine .bind .advance fun _ _ => .bind (.accept _) fun _ _ => .ite ?_ ?_
    · refine .bind (.require _ _) fun _ _ => .bind hnested fun size hsize => .bind (.require _ _) fun _ _ => ?_
      exact .bind (.mark hstart) fun node hnode => .pure (.cons_of_some rfl hnode hsize)
    · refine .bind .identifier fun _ _ => .bind (.require _ _) fun _ _ => .bind (.require _ _) fun _ _ => ?_
      exact leaf_behind hstart fun _ => rfl
  · exact .fail _
  · exact .bind .advance fun _ _ => leaf_behind hstart fun _ => rfl

theorem primary_behind (hnested : nested.Behind k (Later k ·.visits)) : (primary nested).Behind k (Later k ·.visits) := by
  refine .bind .here fun start hstart => .bind .peek? fun token _ => ?_
  split
  · exact .bind .advance fun _ _ => .ite (leaf_behind hstart fun _ => rfl) (.failAt hstart _)
  · refine .bind .advance fun _ _ => .bind hnested fun inner hinner => ?_
    exact .bind (.require _ _) fun _ _ => .pure hinner
  · exact wordExpr_behind hnested hstart _
  · exact .fail _

theorem suffixes_behind (hnested : nested.Behind k (Later k ·.visits)) (hstart : k ≤ start.start) (bound : Nat) :
    ∀ {e : Expr}, Later k e.visits → (suffixes nested start bound e).Behind k (Later k ·.visits) := by
  induction bound with
  | zero => exact fun he => .pure he
  | succ bound ih =>
      intro e he
      refine .bind .peek? fun token _ => ?_
      split
      · refine .bind .advance fun _ _ => .bind hnested fun index hindex => .bind (.require _ _) fun _ _ => ?_
        exact .bind (.mark hstart) fun node hnode => ih (.cons_of_some rfl hnode (he.append hindex))
      · refine .bind .advance fun _ _ => .bind .get fun _ _ => .ite ?_ ?_
        · exact .bind .advance fun _ _ => .bind (.mark hstart) fun node hnode => ih (.cons_of_some rfl hnode he)
        · refine .bind .identifier fun _ _ => .bind (parenthesised_behind hnested bound) fun args hargs => ?_
          refine .bind (.mark hstart) fun node hnode => ih ?_
          exact .cons_of_some rfl hnode (he.append (Expr.later_visitsAll hargs))
      · exact .pure he

theorem suffixed_behind (hnested : nested.Behind k (Later k ·.visits)) (bound : Nat) :
    (suffixed nested bound).Behind k (Later k ·.visits) :=
  .bind .here fun _ hstart => .bind (primary_behind hnested) fun _ he => suffixes_behind hnested hstart bound he

theorem negation_behind (hoperand : operand.Behind k (Later k ·.visits)) (bound : Nat) :
    (negation operand bound).Behind k (Later k ·.visits) := by
  induction bound with
  | zero => exact hoperand
  | succ bound ih =>
      refine .bind .here fun start hstart => .bind (.accept _) fun _ _ => .ite ?_ hoperand
      refine .bind ih fun e he => .bind (.mark hstart) fun node hnode => ?_
      exact .pure (.cons_of_some rfl hnode he)

theorem exprWithin_behind (bound : Nat) : (exprWithin bound).Behind k (Later k ·.visits) := by
  induction bound with
  | zero => exact .fail _
  | succ bound ih =>
      have hoperand := negation_behind (suffixed_behind ih bound) (bound + 1)
      exact leftAssoc_behind (leftAssoc_behind (leftAssoc_behind (leftAssoc_behind hoperand _ _) _ _) _ _) _ _

end

section
variable {nested : Parser Stmt} {value : Parser Expr} {start : Span}

theorem condition_behind (hvalue : value.Behind k (Later k ·.visits)) :
    (condition value).Behind k (Later k ·.visits) :=
  .bind (.require _ _) fun _ _ => .bind hvalue fun _ he => .bind (.require _ _) fun _ _ => .pure he

theorem assignment_behind (hvalue : value.Behind k (Later k ·.visits)) (hstart : k ≤ start.start) :
    (assignment value start).Behind k (Later k ·.visits) := by
  refine .bind .identifier fun _ _ => .bind (.accept _) fun _ _ => .ite ?_ ?_
  · refine .bind hvalue fun index hindex => .bind (.require _ _) fun _ _ => .bind (.require _ _) fun _ _ => ?_
    refine .bind hvalue fun element helement => .bind (.require _ _) fun _ _ => .bind (.mark hstart) fun node hnode => ?_
    exact .pure (.cons_of_some rfl hnode (hindex.append helement))
  · refine .bind (.require _ _) fun _ _ => .bind hvalue fun e he => .bind (.require _ _) fun _ _ => ?_
    exact .bind (.mark hstart) fun node hnode => .pure (.cons_of_some rfl hnode he)

theorem wordStmt_behind (hnested : nested.Behind k (Later k ·.visits)) (hvalue : value.Behind k (Later k ·.visits))
    (hstart : k ≤ start.start) (text : String) : (wordStmt nested value start text).Behind k (Later k ·.visits) := by
  rw [wordStmt]
  split
  · refine .bind .advance fun _ _ => .bind (condition_behind hvalue) fun cond hcond => ?_
    refine .bind hnested fun thenBranch hthen => .bind (.require _ _) fun _ _ => .bind hnested fun elseBranch helse => ?_
    refine .bind (.mark hstart) fun node hnode => .pure ?_
    exact .cons_of_some rfl hnode ((hcond.append hthen).append helse)
  · refine .bind .advance fun _ _ => .bind (condition_behind hvalue) fun cond hcond => .bind hnested fun body hbody => ?_
    exact .bind (.mark hstart) fun node hnode => .pure (.cons_of_some rfl hnode (hcond.append hbody))
  · exact .fail _
  · exact assignment_behind hvalue hstart

theorem stmtForm_behind (hnested : nested.Behind k (Later k ·.visits)) (hvalue : value.Behind k (Later k ·.visits))
    (bound : Nat) : (stmtForm nested value bound).Behind k (Later k ·.visits) := by
  refine .bind .here fun start hstart => .bind .peek? fun token _ => ?_
  split
  · refine .bind .advance fun _ _ => .bind (manyUntil_behind hnested _ _ bound) fun body hbody => ?_
    refine .bind (.require _ _) fun _ _ => .bind (.mark hstart) fun node hnode => .pure ?_
    exact .cons_of_some rfl hnode (Stmt.later_visitsAll hbody)
  · refine .bind .advance fun _ _ => .bind (condition_behind hvalue) fun arg harg => .bind (.require _ _) fun _ _ => ?_
    exact .bind (.mark hstart) fun node hnode => .pure (.cons_of_some rfl hnode harg)
  · exact wordStmt_behind hnested hvalue hstart _
  · exact .fail _

theorem stmtWithin_behind (bound : Nat) : (stmtWithin bound).Behind k (Later k ·.visits) := by
  induction bound with
  | zero => exact .fail _
  | succ bound ih => exact stmtForm_behind ih (exprWithin_behind bound) bound

end

theorem type_behind : type.Behind k fun _ => True := by
  refine .bind (.accept _) fun _ _ => .ite ?_ (.bind (.accept _) fun _ _ => .ite (.pure trivial) ?_)
  · refine .bind (.accept _) fun _ _ => .ite ?_ (.pure trivial)
    exact .bind (.require _ _) fun _ _ => .pure trivial
  · refine .bind .get fun _ _ => .ite ?_ (.fail _)
    exact .bind .identifier fun _ _ => .pure trivial

theorem formal_behind : formal.Behind k (Later k ·.formalVisits) := by
  refine .bind .here fun start hstart => .bind type_behind fun _ _ => .bind .identifier fun _ _ => ?_
  refine .bind (.mark hstart) fun node hnode => .pure ?_
  exact .cons_of_some rfl hnode (.cons_of_none rfl (later_nil k))

theorem varDecl_behind : varDecl.Behind k (Later k ·.visits) := by
  refine .bind .here fun start hstart => .bind type_behind fun _ _ => .bind .identifier fun _ _ => ?_
  refine .bind (.require _ _) fun _ _ => .bind (.mark hstart) fun node hnode => .pure ?_
  exact .cons_of_some rfl hnode (.cons_of_none rfl (later_nil k))

theorem methodDecl_behind (bound : Nat) : (methodDecl bound).Behind k (Later k ·.visits) := by
  refine .bind .here fun start hstart => .bind (.accept _) fun _ _ => .bind type_behind fun _ _ => ?_
  refine .bind .identifier fun _ _ => .bind (parenthesised_behind formal_behind bound) fun formals hformals => ?_
  refine .bind (.require _ _) fun _ _ => .bind (many_behind varDecl_behind _ bound) fun locals hlocals => ?_
  refine .bind (manyUntil_behind (stmtWithin_behind bound) _ _ bound) fun body hbody => .bind (.require _ _) fun _ _ => ?_
  refine .bind (exprWithin_behind bound) fun result hresult => .bind (.require _ _) fun _ _ => ?_
  refine .bind (.require _ _) fun _ _ => .bind (.mark hstart) fun node hnode => .pure ?_
  refine .cons_of_some rfl hnode (.cons_of_none rfl ?_)
  exact (((Later.flatMap hformals).append (.flatMap hlocals)).append (Stmt.later_visitsAll hbody)).append hresult

theorem member_behind (bound : Nat) : (member bound).Behind k (Later k ·.visits) :=
  .bind .get fun _ _ => .ite (.fail _) (methodDecl_behind bound)

theorem superclass_behind : superclass.Behind k fun _ => True :=
  .bind (.accept _) fun _ _ => .ite (.bind .identifier fun _ _ => .pure trivial) (.pure trivial)

/-- Only the lexemes from the first one of a class on matter, not what was read before. -/
theorem classDecl_stays (h : c.Ahead k) (hne : c.rest ≠ []) (bound : Nat) :
    (classDecl bound).Stays k c (Later k ·.visits) := by
  have hstart := h.here hne
  rw [classDecl, Stays, run_here_bind]
  refine (stays_require h hne).bind fun _ _ => ?_
  refine .bind .identifier fun _ _ => .bind superclass_behind fun _ _ => .bind (.require _ _) fun _ _ => ?_
  refine .bind (many_behind varDecl_behind _ bound) fun fields hfields => ?_
  refine .bind (manyUntil_behind (member_behind bound) _ _ bound) fun methods hmethods => ?_
  refine .bind (.require _ _) fun _ _ => .bind (.mark hstart) fun node hnode => .pure ?_
  exact .cons_of_some rfl hnode ((Later.flatMap hfields).append (.flatMap hmethods))

/-- The classes of a text whose lexemes all start at byte `k` or later. -/
theorem classes_later (bound count : Nat) : ∀ {c : Cursor}, c.Ahead k →
    match (many (fun c => !c.atEnd) (classDecl bound) count).run c with
    | .ok cs _ => Later k (cs.flatMap ClassDecl.visits)
    | .error e _ => k ≤ e.span.start := by
  induction count with
  | zero => exact fun _ => later_nil k
  | succ count ih =>
      intro c hc
      rw [many, run_get_bind]
      by_cases hend : c.rest = []
      · have hmore : (!c.atEnd) = false := by rw [Cursor.atEnd, hend]; rfl
        rw [hmore]
        exact later_nil k
      · have hmore : (!c.atEnd) = true := by
          rw [Cursor.atEnd, Bool.not_eq_true', List.isEmpty_eq_false_iff]
          exact hend
        have hfirst := classDecl_stays hc hend bound
        rw [hmore, if_pos rfl, EStateM.run_bind]
        rw [Stays] at hfirst
        cases hrun : (classDecl bound).run c with
        | error e c₁ =>
            rw [hrun] at hfirst
            exact hfirst
        | ok d c₁ =>
            rw [hrun] at hfirst
            have hrest := ih hfirst.1.ahead
            change (match ((many (fun c => !c.atEnd) (classDecl bound) count) >>= fun rest => pure (d :: rest)).run c₁ with
              | .ok cs _ => Later k (cs.flatMap ClassDecl.visits)
              | .error e _ => k ≤ e.span.start)
            rw [EStateM.run_bind]
            cases hrun' : (many (fun c => !c.atEnd) (classDecl bound) count).run c₁ with
            | error e c₂ =>
                rw [hrun'] at hrest
                exact hrest
            | ok cs c₂ =>
                rw [hrun'] at hrest
                exact hfirst.2.append hrest

end Parser

end Demitasse
