import Demitasse.Proofs.Partition
import Demitasse.Proofs.SpanTrees

/-! The spans of the nodes that a parser makes. A cursor has read the lexemes that end at its position or before,
and all others are left. From where it stands a parser lays down trees in a row up to where it stops: a node starts
with the first lexeme from its position on, or with its left operand, and it ends with the lexeme that was read
last. -/

namespace Demitasse

open NodeTree

theorem Expr.span_tree (e : Expr) : e.tree.node.span = e.span := by
  cases e <;> rfl

theorem Expr.trees_eq_map (es : List Expr) : Expr.trees es = es.map Expr.tree := by
  induction es with
  | nil => rfl
  | cons e rest ih => rw [Expr.trees, ih, List.map_cons]

theorem Stmt.trees_eq_map (ss : List Stmt) : Stmt.trees ss = ss.map Stmt.tree := by
  induction ss with
  | nil => rfl
  | cons s rest ih => rw [Stmt.trees, ih, List.map_cons]

/-- Lexemes in source order, none of them empty. -/
structure InOrder (L : List Lexeme) : Prop where
  nonempty : ∀ l ∈ L, l.span.start < l.span.stop
  disjoint : L.Pairwise fun l m => l.span.stop ≤ m.span.start

/-- A lexeme that does not end behind another one does not start behind it. -/
theorem InOrder.start_le {L : List Lexeme} (h : InOrder L) {l m : Lexeme} (hl : l ∈ L) (hm : m ∈ L)
    (hstop : l.span.stop ≤ m.span.stop) : l.span.start ≤ m.span.start := by
  have hl' := h.nonempty l hl
  obtain ⟨front, back, rfl⟩ := List.append_of_mem hm
  obtain ⟨_, hback, hfront⟩ := List.pairwise_append.mp h.disjoint
  rcases List.mem_append.mp hl with hl | hl
  · have := hfront l hl m List.mem_cons_self
    omega
  · rcases List.mem_cons.mp hl with rfl | hl
    · exact Nat.le_refl _
    · have := (List.pairwise_cons.mp hback).1 l hl
      omega

/-- Between two bytes stands a lexeme. -/
structure HasLexeme (L : List Lexeme) (lo hi : Nat) : Prop where
  le : lo ≤ hi
  lexeme : ∃ l ∈ L, lo ≤ l.span.start ∧ l.span.stop ≤ hi

/-- Some lexeme starts at a byte or behind it. -/
def Left (L : List Lexeme) (pos : Nat) : Prop :=
  ∃ l ∈ L, pos ≤ l.span.start

/-- A span is that of a lexeme behind byte `lo` and not behind the lexeme `m`. -/
structure Span.Precedes (L : List Lexeme) (lo : Nat) (span : Span) (m : Lexeme) : Prop where
  lexeme : ∃ l ∈ L, l.span = span
  nonempty : span.start < span.stop
  behind : lo ≤ span.start
  start_le : span.start ≤ m.span.start
  stop_le : span.stop ≤ m.span.stop

/-- Of the lexemes from a byte on, if there are any, the first one has the given span. -/
def Span.Opens (L : List Lexeme) (lo : Nat) (span : Span) : Prop :=
  ∀ m ∈ L, lo ≤ m.span.start → span.Precedes L lo m

/-- A cursor in a list of lexemes: those up to its position are read, and all others are left. -/
structure Cursor.On (L : List Lexeme) (c : Cursor) : Prop where
  ordered : InOrder L
  suffix : c.rest <:+ L
  last : c.last = .origin ∨ ∃ l ∈ L, l.span = c.last
  read : ∀ l ∈ L, l.span.stop ≤ c.last.stop ∨ l ∈ c.rest
  ahead : ∀ l ∈ c.rest, c.last.stop ≤ l.span.start

namespace Cursor

variable {L : List Lexeme} {c : Cursor}

theorem On.start (h : InOrder L) : (Cursor.start L).On L :=
  ⟨h, List.suffix_refl L, .inl rfl, fun _ => .inr, fun _ _ => Nat.zero_le _⟩

theorem On.advance (h : c.On L) : c.advance.On L := by
  obtain ⟨rest, last, nextId⟩ := c
  cases rest with
  | nil => exact h
  | cons l rest =>
      have hl : l ∈ L := h.suffix.subset List.mem_cons_self
      have hnonempty := h.ordered.nonempty l hl
      have hstart := h.ahead l List.mem_cons_self
      have hrest := List.pairwise_cons.mp (h.ordered.disjoint.sublist h.suffix.sublist)
      refine ⟨h.ordered, (List.suffix_cons l rest).trans h.suffix, .inr ⟨l, hl, rfl⟩, fun m hm => ?_, hrest.1⟩
      change m.span.stop ≤ l.span.stop ∨ m ∈ rest
      rcases h.read m hm with hread | hmem
      · left
        dsimp only at hread hstart
        omega
      · rcases List.mem_cons.mp hmem with rfl | hmem
        · exact .inl (Nat.le_refl _)
        · exact .inr hmem

/-- What starts at the position of a cursor or behind it is not read yet. -/
theorem On.mem_rest (h : c.On L) {m : Lexeme} (hm : m ∈ L) (hpos : c.last.stop ≤ m.span.start) : m ∈ c.rest := by
  have hnonempty := h.ordered.nonempty m hm
  rcases h.read m hm with hread | hmem
  · omega
  · exact hmem

theorem On.opens (h : c.On L) : c.here.Opens L c.last.stop := by
  intro m hm hpos
  have hmem := h.mem_rest hm hpos
  obtain ⟨rest, last, nextId⟩ := c
  cases rest with
  | nil => cases hmem
  | cons l rest =>
      have hl : l ∈ L := h.suffix.subset List.mem_cons_self
      have hstart := h.ahead l List.mem_cons_self
      have hstop : l.span.stop ≤ m.span.stop := by
        rcases List.mem_cons.mp hmem with rfl | hmem
        · exact Nat.le_refl _
        · have hrest := List.pairwise_cons.mp (h.ordered.disjoint.sublist h.suffix.sublist)
          have hlm := hrest.1 m hmem
          have hnonempty := h.ordered.nonempty m hm
          omega
      exact ⟨⟨l, hl, rfl⟩, h.ordered.nonempty l hl, hstart, h.ordered.start_le hl hm hstop, hstop⟩

theorem On.hasLexeme_advance (h : c.On L) (hne : c.rest ≠ []) : HasLexeme L c.last.stop c.advance.last.stop := by
  obtain ⟨rest, last, nextId⟩ := c
  cases rest with
  | nil => exact absurd rfl hne
  | cons l rest =>
      have hl : l ∈ L := h.suffix.subset List.mem_cons_self
      have hstart := h.ahead l List.mem_cons_self
      have hnonempty := h.ordered.nonempty l hl
      exact ⟨Nat.le_trans hstart (Nat.le_of_lt hnonempty), l, hl, hstart, Nat.le_refl _⟩

/-- Where there is a next token, a lexeme is left. -/
theorem On.left_of_peek? (h : c.On L) (hne : c.peek? ≠ none) : Left L c.last.stop := by
  obtain ⟨rest, last, nextId⟩ := c
  cases rest with
  | nil => exact absurd rfl hne
  | cons l rest => exact ⟨l, h.suffix.subset List.mem_cons_self, h.ahead l List.mem_cons_self⟩

/-- If some lexeme is read, the one that was read last starts there or later. -/
theorem On.exists_last (h : c.On L) {l : Lexeme} (hl : l ∈ L) (hread : l.span.stop ≤ c.last.stop) :
    ∃ m ∈ L, m.span = c.last ∧ l.span.start ≤ m.span.start := by
  have hnonempty := h.ordered.nonempty l hl
  rcases h.last with horigin | ⟨m, hm, hspan⟩
  · rw [horigin] at hread
    have : l.span.stop ≤ 0 := hread
    omega
  · rw [← hspan] at hread
    exact ⟨m, hm, hspan, h.ordered.start_le hl hm hread⟩

end Cursor

section
variable {L : List Lexeme} {lo mid hi : Nat} {t : NodeTree} {ts : List NodeTree}

theorem HasLexeme.of_le (h : HasLexeme L mid hi) (hle : lo ≤ mid) : HasLexeme L lo hi := by
  obtain ⟨l, hl, hstart, hstop⟩ := h.lexeme
  exact ⟨Nat.le_trans hle h.le, l, hl, Nat.le_trans hle hstart, hstop⟩

/-- Between the bounds of a row with a tree in it stands a lexeme. -/
theorem NodeTree.InRow.hasLexeme (h : InRow L (t :: ts) lo hi) : HasLexeme L lo hi := by
  obtain ⟨hstart, hstop, hanchored⟩ := h.within List.mem_cons_self
  obtain ⟨l, hl, hle, heq⟩ := hanchored.span.last
  exact ⟨h.le, l, hl, Nat.le_trans hstart hle, heq ▸ hstop⟩

/-- What stands in a row from a byte on stands behind the start of the first lexeme from there on. -/
theorem Span.Opens.inRow {start : Span} (h : start.Opens L lo) (hlexeme : HasLexeme L lo hi) (hrow : InRow L ts lo hi) :
    InRow L ts start.start hi := by
  cases ts with
  | nil =>
      obtain ⟨m, hm, hlo, hhi⟩ := hlexeme.lexeme
      have hfirst := h m hm hlo
      exact inRow_nil.mpr (by have := hfirst.nonempty; have := hfirst.stop_le; omega)
  | cons t ts =>
      obtain ⟨hstart, ht, hrest⟩ := inRow_cons.mp hrow
      obtain ⟨m, hm, heq, _⟩ := ht.span.first
      have hle := (h m hm (heq ▸ hstart)).start_le
      exact inRow_cons.mpr ⟨heq ▸ hle, ht, hrest⟩

end

namespace Parser

variable {α β : Type} {L : List Lexeme} {pos : Nat} {p q : Parser α} {f : α → Parser β} {P : α → Nat → Prop}
  {Q : β → Nat → Prop}

/-- From a cursor at the given position a parser comes to another position, and `P` holds of what it returns and of
that position. -/
def From (L : List Lexeme) (pos : Nat) (p : Parser α) (P : α → Nat → Prop) : Prop :=
  ∀ ⦃c a c'⦄, c.On L → c.last.stop = pos → p.run c = .ok a c' → c'.On L ∧ P a c'.last.stop

namespace From

theorem pure {a : α} (ha : P a pos) : From L pos (Pure.pure a) P := by
  rintro c _ _ hc rfl ⟨⟩
  exact ⟨hc, ha⟩

theorem bind (hp : From L pos p P) (hf : ∀ a mid, P a mid → From L mid (f a) Q) : From L pos (p >>= f) Q := by
  intro c b c' hc hpos h
  obtain ⟨a, c₁, ha, h⟩ := bind_eq_ok.mp h
  obtain ⟨hc₁, hP⟩ := hp hc hpos ha
  exact hf a _ hP hc₁ rfl h

theorem imp {P' : α → Nat → Prop} (hp : From L pos p P) (h : ∀ a hi, P a hi → P' a hi) : From L pos p P' :=
  fun _ a _ hc hpos hrun => (hp hc hpos hrun).imp_right (h a _)

theorem fail (cause : SyntaxFault) : From L pos (Parser.fail cause) P :=
  fun _ _ _ _ _ h => absurd h (run_fail cause)

theorem failAt (span : Span) (cause : SyntaxFault) : From L pos (Parser.failAt span cause) P := by
  rintro c a c' - - ⟨⟩

theorem ite {b : Prop} [Decidable b] (hp : From L pos p P) (hq : From L pos q P) :
    From L pos (if b then p else q) P := by
  by_cases h : b
  · rw [if_pos h]
    exact hp
  · rw [if_neg h]
    exact hq

theorem get {f : Cursor → Parser β} (hf : ∀ c, (c.peek? ≠ none → Left L pos) → From L pos (f c) Q) :
    From L pos (MonadState.get >>= f) Q := by
  rintro c b c' hc rfl h
  exact hf c hc.left_of_peek? hc rfl h

theorem peek? {f : Option Token → Parser β} (hf : ∀ token, (token ≠ none → Left L pos) → From L pos (f token) Q) :
    From L pos (Parser.peek? >>= f) Q := by
  rintro c b c' hc rfl h
  exact hf c.peek? hc.left_of_peek? hc rfl h

theorem here {f : Span → Parser β} (hf : ∀ start, start.Opens L pos → From L pos (f start) Q) :
    From L pos (Parser.here >>= f) Q := by
  rintro c b c' hc rfl h
  exact hf c.here hc.opens hc rfl h

theorem advance_of_left (h : Left L pos) : From L pos Parser.advance fun _ hi => HasLexeme L pos hi := by
  rintro c _ _ hc rfl ⟨⟩
  obtain ⟨m, hm, hpos⟩ := h
  exact ⟨hc.advance, hc.hasLexeme_advance (List.ne_nil_of_mem (hc.mem_rest hm hpos))⟩

theorem advance : From L pos Parser.advance fun _ hi => pos ≤ hi := by
  rintro c _ _ hc rfl ⟨⟩
  refine ⟨hc.advance, ?_⟩
  by_cases hend : c.rest = []
  · rw [Cursor.advance, hend]
  · exact (hc.hasLexeme_advance hend).le

theorem accept (t : Token) : From L pos (Parser.accept t) fun _ hi => pos ≤ hi :=
  get fun _ _ => ite (advance.bind fun _ _ h => pure h) (pure (Nat.le_refl _))

theorem require (t : Token) (cause : SyntaxFault) :
    From L pos (Parser.require t cause) fun _ hi => HasLexeme L pos hi := by
  refine get fun c hleft => ?_
  by_cases hsees : c.sees t = true
  · have hpeek : c.peek? ≠ none := by
      rw [Cursor.sees_iff.mp hsees]
      exact Option.some_ne_none t
    rw [if_pos hsees]
    exact advance_of_left (hleft hpeek)
  · rw [if_neg hsees]
    exact fail cause

theorem identifier : From L pos Parser.identifier fun _ hi => HasLexeme L pos hi := by
  refine peek? fun token hleft => ?_
  split
  · exact ite ((advance_of_left (hleft (Option.some_ne_none _))).bind fun _ _ h => pure h) (fail _)
  · exact fail _

/-! A parser lays down trees since some position `lo`, those of `row` so far. -/

section
variable {lo : Nat} {row : List NodeTree}

theorem skip (hp : From L pos p fun _ hi => pos ≤ hi) (hrow : InRow L row lo pos)
    (hf : ∀ a hi, InRow L row lo hi → From L hi (f a) Q) : From L pos (p >>= f) Q :=
  hp.bind fun a hi hle => hf a hi (hrow.mono hle)

theorem read (hp : From L pos p fun _ hi => HasLexeme L pos hi) (hrow : InRow L row lo pos)
    (hf : ∀ a hi, InRow L row lo hi → HasLexeme L lo hi → From L hi (f a) Q) : From L pos (p >>= f) Q :=
  hp.bind fun a hi hlexeme => hf a hi (hrow.mono hlexeme.le) (hlexeme.of_le hrow.le)

theorem lay {trees : α → List NodeTree} (hp : From L pos p fun a hi => InRow L (trees a) pos hi)
    (hrow : InRow L row lo pos) (hf : ∀ a hi, InRow L (row ++ trees a) lo hi → From L hi (f a) Q) :
    From L pos (p >>= f) Q :=
  hp.bind fun a hi htrees => hf a hi (hrow.append htrees)

end

/-- A new node reaches from where a lexeme starts that was read to the position of the cursor. -/
theorem mark {start : Span} {lo : Nat} {parts : List NodeTree} {f : Node → Parser β}
    (hfirst : ∃ l ∈ L, l.span.start = start.start ∧ l.span.stop ≤ pos) (hstop : start.stop ≤ pos)
    (hlo : lo ≤ start.start) (hrow : InRow L parts start.start pos)
    (hf : ∀ node, InRow L [.mk node parts] lo pos → From L pos (f node) Q) :
    From L pos (Parser.mark start >>= f) Q := by
  rintro c b c' hc rfl h
  obtain ⟨l, hl, hstart, hread⟩ := hfirst
  obtain ⟨m, hm, hlast, hle⟩ := hc.exists_last hl hread
  have hnonempty := hc.ordered.nonempty l hl
  have hspan : start.merge c.last = ⟨start.start, c.last.stop⟩ := by
    rw [Span.merge, Nat.max_eq_right hstop, Nat.min_eq_left]
    rw [← hstart, ← hlast]
    exact hle
  have hanchored : Span.Anchored L ⟨start.start, c.last.stop⟩ := by
    refine ⟨?_, ⟨l, hl, hstart, hread⟩, m, hm, ?_, by rw [hlast]⟩
    · change start.start < c.last.stop
      omega
    · change start.start ≤ m.span.start
      omega
  have hc' : Cursor.On L { c with nextId := c.nextId + 1 } := ⟨hc.ordered, hc.suffix, hc.last, hc.read, hc.ahead⟩
  refine hf ⟨c.nextId, start.merge c.last⟩ ?_ hc' rfl h
  rw [hspan]
  exact inRow_singleton.mpr ⟨hlo, ⟨hanchored, hrow⟩, Nat.le_refl _⟩

/-- A new node that starts with the next lexeme, over the trees that were laid down since. -/
theorem node {start : Span} {parts : List NodeTree} {lo : Nat} {f : Node → Parser β} (hopens : start.Opens L lo)
    (hlexeme : HasLexeme L lo pos) (hrow : InRow L parts lo pos)
    (hf : ∀ node, InRow L [.mk node parts] lo pos → From L pos (f node) Q) :
    From L pos (Parser.mark start >>= f) Q := by
  obtain ⟨m, hm, hlo, hhi⟩ := hlexeme.lexeme
  have hfirst := hopens m hm hlo
  have hstop : start.stop ≤ pos := Nat.le_trans hfirst.stop_le hhi
  have hrow' := hopens.inRow hlexeme hrow
  obtain ⟨l, hl, rfl⟩ := hfirst.lexeme
  exact mark ⟨l, hl, rfl, hstop⟩ hstop hfirst.behind hrow' hf

/-- A new node that starts with a tree, over that tree and those behind it. -/
theorem extend {t : NodeTree} {ts : List NodeTree} {lo mid : Nat} {f : Node → Parser β} (ht : InRow L [t] lo mid)
    (hrow : InRow L ts mid pos) (hf : ∀ node, InRow L [.mk node (t :: ts)] lo pos → From L pos (f node) Q) :
    From L pos (Parser.mark t.node.span >>= f) Q := by
  obtain ⟨hlo, hanchored, hstop⟩ := inRow_singleton.mp ht
  obtain ⟨l, hl, hstart, hread⟩ := hanchored.span.first
  have hpos : t.node.span.stop ≤ pos := Nat.le_trans hstop hrow.le
  refine mark ⟨l, hl, hstart, Nat.le_trans hread hpos⟩ hpos hlo ?_ hf
  exact inRow_cons.mpr ⟨Nat.le_refl _, hanchored, hrow.of_le hstop⟩

end From

/-- From any position on, a parser lays down one tree. -/
def Lays (L : List Lexeme) (p : Parser α) (tree : α → NodeTree) : Prop :=
  ∀ lo, From L lo p fun a hi => InRow L [tree a] lo hi

section
variable {item : Parser α} {tree : α → NodeTree} (hitem : Lays L item tree)
include hitem

theorem many_lays (more : Cursor → Bool) (bound lo : Nat) :
    From L lo (many more item bound) fun as hi => InRow L (as.map tree) lo hi := by
  induction bound generalizing lo with
  | zero => exact .pure (inRow_refl lo)
  | succ bound ih =>
      refine .get fun _ _ => .ite ?_ (.pure (inRow_refl lo))
      exact .bind (hitem lo) fun a mid hrow => .lay (ih mid) hrow fun rest hi hrow => .pure hrow

theorem manyUntil_lays (stop : Token) (unfinished : SyntaxFault) (bound lo : Nat) :
    From L lo (manyUntil stop unfinished item bound) fun as hi => InRow L (as.map tree) lo hi := by
  induction bound generalizing lo with
  | zero => exact .fail unfinished
  | succ bound ih =>
      refine .get fun _ _ => .ite (.pure (inRow_refl lo)) (.ite (.fail unfinished) ?_)
      exact .bind (hitem lo) fun a mid hrow => .lay (ih mid) hrow fun rest hi hrow => .pure hrow

theorem separated_lays (bound lo : Nat) :
    From L lo (separated item bound) fun as hi => InRow L (as.map tree) lo hi := by
  induction bound generalizing lo with
  | zero => exact .bind (hitem lo) fun a hi hrow => .pure hrow
  | succ bound ih =>
      refine .bind (hitem lo) fun a _ hrow => .skip (.accept .comma) hrow fun _ mid hrow => .ite ?_ (.pure hrow)
      exact .lay (ih mid) hrow fun rest hi hrow => .pure hrow

theorem parenthesised_lays (bound lo : Nat) :
    From L lo (parenthesised item bound) fun as hi => InRow L (as.map tree) lo hi := by
  have hclose : ∀ (as : List α) (mid : Nat), InRow L (as.map tree) lo mid →
      From L mid (do expect .rparen; return as) fun as hi => InRow L (as.map tree) lo hi :=
    fun as mid hrow => .read (.require _ _) hrow fun _ _ hrow _ => .pure hrow
  refine .read (.require _ _) (inRow_refl lo) fun _ mid hrow _ => .get fun _ _ => ?_
  dsimp only
  exact .ite (.bind (.pure hrow) hclose) (.lay (separated_lays hitem bound mid) hrow hclose)

end

/-! ### Expressions -/

section
variable {operand nested : Parser Expr} {start : Span} {lo : Nat}

theorem chain_lays (hoperand : Lays L operand Expr.tree) (operator : Token → Option BinOp) (bound : Nat) :
    ∀ {left : Expr} {pos : Nat}, InRow L [left.tree] lo pos →
      From L pos (chain operator operand bound left) fun e hi => InRow L [e.tree] lo hi := by
  induction bound with
  | zero => exact fun hleft => .pure hleft
  | succ bound ih =>
      intro left pos hleft
      refine .peek? fun token _ => ?_
      cases token.bind operator with
      | none => exact .pure hleft
      | some op =>
          refine .skip .advance (inRow_refl pos) fun _ mid hrow => .lay (hoperand mid) hrow fun right hi hrow => ?_
          rw [← left.span_tree]
          exact .extend hleft hrow fun node hnode => ih hnode

theorem leftAssoc_lays (hoperand : Lays L operand Expr.tree) (operator : Token → Option BinOp) (bound : Nat) :
    Lays L (leftAssoc operator bound operand) Expr.tree :=
  fun lo => .bind (hoperand lo) fun _ _ hleft => chain_lays hoperand operator bound hleft

theorem wordExpr_lays (hnested : Lays L nested Expr.tree) (hopens : start.Opens L lo) (hleft : Left L lo)
    (text : String) : From L lo (wordExpr nested start text) fun e hi => InRow L [e.tree] lo hi := by
  -- an expression of one word
  have hleaf : ∀ make : Node → Expr, (∀ node, (make node).tree = .mk node []) →
      From L lo (do advance; return make (← mark start)) fun e hi => InRow L [e.tree] lo hi := by
    intro make hmake
    refine .read (.advance_of_left hleft) (inRow_refl lo) fun _ _ hrow hlexeme => ?_
    refine .node hopens hlexeme hrow fun node hnode => .pure ?_
    rw [hmake]
    exact hnode
  rw [wordExpr]
  split
  · exact hleaf (.bool · true) fun _ => rfl
  · exact hleaf (.bool · false) fun _ => rfl
  · exact hleaf .this fun _ => rfl
  · refine .skip .advance (inRow_refl lo) fun _ _ hrow => .skip (.accept _) hrow fun _ _ hrow => .ite ?_ ?_
    · refine .read (.require _ _) hrow fun _ mid hrow _ => .lay (hnested mid) hrow fun size _ hrow => ?_
      refine .read (.require _ _) hrow fun _ _ hrow hlexeme => ?_
      exact .node hopens hlexeme hrow fun node hnode => .pure hnode
    · refine .read .identifier hrow fun _ _ hrow _ => .read (.require _ _) hrow fun _ _ hrow _ => ?_
      refine .read (.require _ _) hrow fun _ _ hrow hlexeme => ?_
      exact .node hopens hlexeme hrow fun node hnode => .pure hnode
  · exact .fail _
  · exact hleaf (.var · text) fun _ => rfl

theorem primary_lays (hnested : Lays L nested Expr.tree) : Lays L (primary nested) Expr.tree := by
  refine fun lo => .here fun start hopens => .peek? fun token hleft => ?_
  split
  · have hleft := hleft (Option.some_ne_none _)
    refine .read (.advance_of_left hleft) (inRow_refl lo) fun _ _ hrow hlexeme => .ite ?_ (.failAt _ _)
    exact .node hopens hlexeme hrow fun node hnode => .pure hnode
  · refine .skip .advance (inRow_refl lo) fun _ mid hrow => .lay (hnested mid) hrow fun inner _ hrow => ?_
    exact .read (.require _ _) hrow fun _ _ hrow _ => .pure hrow
  · exact wordExpr_lays hnested hopens (hleft (Option.some_ne_none _)) _
  · exact .fail _

theorem suffixes_lays (hnested : Lays L nested Expr.tree) (hopens : start.Opens L lo) (bound : Nat) :
    ∀ {e : Expr} {pos : Nat}, InRow L [e.tree] lo pos →
      From L pos (suffixes nested start bound e) fun e hi => InRow L [e.tree] lo hi := by
  induction bound with
  | zero => exact fun hrow => .pure hrow
  | succ bound ih =>
      intro e pos hrow
      refine .peek? fun token _ => ?_
      split
      · refine .skip .advance hrow fun _ mid hrow => .lay (hnested mid) hrow fun index _ hrow => ?_
        refine .read (.require _ _) hrow fun _ _ hrow hlexeme => ?_
        exact .node hopens hlexeme hrow fun node hnode => ih hnode
      · refine .skip .advance hrow fun _ _ hrow => .get fun _ _ => .ite ?_ ?_
        · refine .skip .advance hrow fun _ _ hrow => ?_
          exact .node hopens hrow.hasLexeme hrow fun node hnode => ih hnode
        · refine .read .identifier hrow fun _ mid hrow _ => ?_
          refine .lay (parenthesised_lays hnested bound mid) hrow fun args _ hrow => ?_
          rw [← Expr.trees_eq_map] at hrow
          exact .node hopens hrow.hasLexeme hrow fun node hnode => ih hnode
      · exact .pure hrow

theorem suffixed_lays (hnested : Lays L nested Expr.tree) (bound : Nat) : Lays L (suffixed nested bound) Expr.tree :=
  fun lo => .here fun _ hopens => .bind (primary_lays hnested lo) fun _ _ he => suffixes_lays hnested hopens bound he

theorem negation_lays (hoperand : Lays L operand Expr.tree) (bound : Nat) :
    Lays L (negation operand bound) Expr.tree := by
  induction bound with
  | zero => exact hoperand
  | succ bound ih =>
      refine fun lo => .here fun start hopens => .bind (.accept _) fun _ mid hle => .ite ?_ ?_
      · refine .lay (ih mid) (inRow_nil.mpr hle) fun e _ hrow => ?_
        exact .node hopens hrow.hasLexeme hrow fun node hnode => .pure hnode
      · exact (hoperand mid).imp fun e hi hrow => hrow.of_le hle

theorem exprWithin_lays (bound : Nat) : Lays L (exprWithin bound) Expr.tree := by
  induction bound with
  | zero => exact fun lo => .fail _
  | succ bound ih =>
      have hoperand := negation_lays (suffixed_lays ih bound) (bound + 1)
      exact leftAssoc_lays (leftAssoc_lays (leftAssoc_lays (leftAssoc_lays hoperand _ _) _ _) _ _) _ _

end

section
variable {nested : Parser Stmt} {value : Parser Expr} {start : Span} {lo : Nat}

theorem condition_lays (hvalue : Lays L value Expr.tree) : Lays L (condition value) Expr.tree := by
  refine fun lo => .read (.require _ _) (inRow_refl lo) fun _ mid hrow _ => .lay (hvalue mid) hrow fun cond _ hrow => ?_
  exact .read (.require _ _) hrow fun _ _ hrow _ => .pure hrow

theorem assignment_lays (hvalue : Lays L value Expr.tree) (hopens : start.Opens L lo) :
    From L lo (assignment value start) fun s hi => InRow L [s.tree] lo hi := by
  refine .read .identifier (inRow_refl lo) fun _ _ hrow _ => .skip (.accept _) hrow fun _ mid hrow => .ite ?_ ?_
  · refine .lay (hvalue mid) hrow fun index _ hrow => .read (.require _ _) hrow fun _ _ hrow _ => ?_
    refine .read (.require _ _) hrow fun _ mid' hrow _ => .lay (hvalue mid') hrow fun element _ hrow => ?_
    refine .read (.require _ _) hrow fun _ _ hrow hlexeme => ?_
    exact .node hopens hlexeme hrow fun node hnode => .pure hnode
  · refine .read (.require _ _) hrow fun _ mid' hrow _ => .lay (hvalue mid') hrow fun e _ hrow => ?_
    refine .read (.require _ _) hrow fun _ _ hrow hlexeme => ?_
    exact .node hopens hlexeme hrow fun node hnode => .pure hnode

theorem wordStmt_lays (hnested : Lays L nested Stmt.tree) (hvalue : Lays L value Expr.tree)
    (hopens : start.Opens L lo) (text : String) :
    From L lo (wordStmt nested value start text) fun s hi => InRow L [s.tree] lo hi := by
  rw [wordStmt]
  split
  · refine .skip .advance (inRow_refl lo) fun _ mid hrow => ?_
    refine .lay (condition_lays hvalue mid) hrow fun cond mid₁ hrow => ?_
    refine .lay (hnested mid₁) hrow fun thenBranch _ hrow => .read (.require _ _) hrow fun _ mid₂ hrow _ => ?_
    refine .lay (hnested mid₂) hrow fun elseBranch _ hrow => ?_
    exact .node hopens hrow.hasLexeme hrow fun node hnode => .pure hnode
  · refine .skip .advance (inRow_refl lo) fun _ mid hrow => ?_
    refine .lay (condition_lays hvalue mid) hrow fun cond mid₁ hrow => ?_
    refine .lay (hnested mid₁) hrow fun body _ hrow => ?_
    exact .node hopens hrow.hasLexeme hrow fun node hnode => .pure hnode
  · exact .fail _
  · exact assignment_lays hvalue hopens

theorem stmtForm_lays (hnested : Lays L nested Stmt.tree) (hvalue : Lays L value Expr.tree) (bound : Nat) :
    Lays L (stmtForm nested value bound) Stmt.tree := by
  refine fun lo => .here fun start hopens => .peek? fun token _ => ?_
  split
  · refine .skip .advance (inRow_refl lo) fun _ mid hrow => ?_
    refine .lay (manyUntil_lays hnested _ _ bound mid) hrow fun body _ hrow => ?_
    refine .read (.require _ _) hrow fun _ _ hrow hlexeme => ?_
    rw [← Stmt.trees_eq_map] at hrow
    exact .node hopens hlexeme hrow fun node hnode => .pure hnode
  · refine .skip .advance (inRow_refl lo) fun _ mid hrow => .lay (condition_lays hvalue mid) hrow fun arg _ hrow => ?_
    refine .read (.require _ _) hrow fun _ _ hrow hlexeme => ?_
    exact .node hopens hlexeme hrow fun node hnode => .pure hnode
  · exact wordStmt_lays hnested hvalue hopens _
  · exact .fail _

theorem stmtWithin_lays (bound : Nat) : Lays L (stmtWithin bound) Stmt.tree := by
  induction bound with
  | zero => exact fun lo => .fail _
  | succ bound ih => exact stmtForm_lays ih (exprWithin_lays bound) bound

end

theorem type_from (lo : Nat) : From L lo type fun _ hi => lo ≤ hi := by
  refine .bind (.accept _) fun _ mid hle => .ite ?_ (.bind (.accept _) fun _ mid' hle' => ?_)
  · refine .bind (.accept _) fun _ mid' hle' => .ite ?_ (.pure (Nat.le_trans hle hle'))
    exact .bind (.require _ _) fun _ hi hclose => .pure (Nat.le_trans hle (Nat.le_trans hle' hclose.le))
  · refine .ite (.pure (Nat.le_trans hle hle')) (.get fun _ _ => .ite ?_ (.fail _))
    exact .bind .identifier fun _ hi hname => .pure (Nat.le_trans hle (Nat.le_trans hle' hname.le))

theorem superclass_from (lo : Nat) : From L lo superclass fun _ hi => lo ≤ hi := by
  refine .bind (.accept _) fun _ mid hle => .ite ?_ (.pure hle)
  exact .bind .identifier fun _ hi hname => .pure (Nat.le_trans hle hname.le)

theorem formal_lays : Lays L formal VarDecl.tree := by
  refine fun lo => .here fun start hopens => .skip (type_from lo) (inRow_refl lo) fun _ _ hrow => ?_
  refine .read .identifier hrow fun _ _ hrow hlexeme => ?_
  exact .node hopens hlexeme hrow fun node hnode => .pure hnode

theorem varDecl_lays : Lays L varDecl VarDecl.tree := by
  refine fun lo => .here fun start hopens => .skip (type_from lo) (inRow_refl lo) fun _ _ hrow => ?_
  refine .read .identifier hrow fun _ _ hrow _ => .read (.require _ _) hrow fun _ _ hrow hlexeme => ?_
  exact .node hopens hlexeme hrow fun node hnode => .pure hnode

theorem methodDecl_lays (bound : Nat) : Lays L (methodDecl bound) MethodDecl.tree := by
  refine fun lo => .here fun start hopens => .skip (.accept _) (inRow_refl lo) fun _ mid hrow => ?_
  refine .skip (type_from mid) hrow fun _ _ hrow => .read .identifier hrow fun _ mid₁ hrow _ => ?_
  refine .lay (parenthesised_lays formal_lays bound mid₁) hrow fun formals _ hrow => ?_
  refine .read (.require _ _) hrow fun _ mid₂ hrow _ => ?_
  refine .lay (many_lays varDecl_lays _ bound mid₂) hrow fun locals mid₃ hrow => ?_
  refine .lay (manyUntil_lays (stmtWithin_lays bound) _ _ bound mid₃) hrow fun body _ hrow => ?_
  refine .read (.require _ _) hrow fun _ mid₄ hrow _ => .lay (exprWithin_lays bound mid₄) hrow fun result _ hrow => ?_
  refine .read (.require _ _) hrow fun _ _ hrow _ => .read (.require _ _) hrow fun _ _ hrow hlexeme => ?_
  rw [← Stmt.trees_eq_map] at hrow
  exact .node hopens hlexeme hrow fun node hnode => .pure hnode

theorem member_lays (bound : Nat) : Lays L (member bound) MethodDecl.tree :=
  fun lo => .get fun _ _ => .ite (.fail _) (methodDecl_lays bound lo)

theorem classDecl_lays (bound : Nat) : Lays L (classDecl bound) ClassDecl.tree := by
  refine fun lo => .here fun start hopens => .read (.require _ _) (inRow_refl lo) fun _ _ hrow _ => ?_
  refine .read .identifier hrow fun _ mid hrow _ => .skip (superclass_from mid) hrow fun _ _ hrow => ?_
  refine .read (.require _ _) hrow fun _ mid₁ hrow _ => ?_
  refine .lay (many_lays varDecl_lays _ bound mid₁) hrow fun fields mid₂ hrow => ?_
  refine .lay (manyUntil_lays (member_lays bound) _ _ bound mid₂) hrow fun methods _ hrow => ?_
  refine .read (.require _ _) hrow fun _ _ hrow hlexeme => ?_
  exact .node hopens hlexeme hrow fun node hnode => .pure hnode

theorem mainClass_lays (bound : Nat) : Lays L (mainClass bound) MainClass.tree := by
  refine fun lo => .here fun start hopens => .read (.require _ _) (inRow_refl lo) fun _ _ hrow _ => ?_
  refine .read .identifier hrow fun _ _ hrow _ => .read (.require _ _) hrow fun _ _ hrow _ => ?_
  refine .read (.require _ _) hrow fun _ _ hrow _ => .read (.require _ _) hrow fun _ _ hrow _ => ?_
  refine .read (.require _ _) hrow fun _ _ hrow _ => .read (.require _ _) hrow fun _ _ hrow _ => ?_
  refine .read (.require _ _) hrow fun _ _ hrow _ => .read (.require _ _) hrow fun _ _ hrow _ => ?_
  refine .read (.require _ _) hrow fun _ _ hrow _ => .read (.require _ _) hrow fun _ _ hrow _ => ?_
  refine .read .identifier hrow fun _ _ hrow _ => .read (.require _ _) hrow fun _ _ hrow _ => ?_
  refine .read (.require _ _) hrow fun _ mid hrow _ => .lay (stmtWithin_lays bound mid) hrow fun body _ hrow => ?_
  refine .read (.require _ _) hrow fun _ _ hrow _ => .read (.require _ _) hrow fun _ _ hrow hlexeme => ?_
  exact .node hopens hlexeme hrow fun node hnode => .pure hnode

theorem programWithin_from (bound lo : Nat) :
    From L lo (programWithin bound) fun p hi => InRow L p.trees lo hi ∧ p.span = programSpan p.main p.classes := by
  refine .bind (mainClass_lays bound lo) fun main mid hrow => ?_
  refine .lay (many_lays (classDecl_lays bound) _ bound mid) hrow fun classes hi hrow => ?_
  exact .pure ⟨hrow, rfl⟩

end Parser

/-! ### Programs -/

/-- A span with the trees that stand directly in it: it reaches from the start of a token to the end of one inside the
source text, and the trees stand in it one after the other. -/
structure NestedSpan (source : String) (L : List Lexeme) (span : Span) (parts : List NodeTree) : Prop where
  nonempty : span.start < span.stop
  inside : span.stop ≤ source.utf8ByteSize
  starts : ∃ l ∈ L, l.span.start = span.start
  stops : ∃ l ∈ L, l.span.stop = span.stop
  contains : ∀ t ∈ parts, span.start ≤ t.node.span.start ∧ t.node.span.stop ≤ span.stop
  ordered : parts.Pairwise fun s t => s.node.span.stop ≤ t.node.span.start

/-- Where a part that a walk meets starts. Types are no nodes and have no span of their own. -/
def Program.startOf? (p : Program) : Visit → Option Nat
  | .program => some p.span.start
  | v => v.node?.map (·.span.start)

/-- A walk meets the program and every node of its trees once, in the order in which they start. -/
structure Program.WalkedInOrder (p : Program) : Prop where
  program_once : p.visits.count .program = 1
  node_once : ((nodes p.visits).map (·.id)).Nodup
  met : ∀ n, n ∈ nodes p.visits ↔ ∃ u ∈ p.trees, ∃ t : NodeTree, t.Inside u ∧ t.node = n
  ordered : (p.visits.filterMap p.startOf?).Pairwise (· ≤ ·)

theorem nodeIds_eq_map (visits : List Visit) : nodeIds visits = (nodes visits).map (·.id) := by
  rw [nodes, List.map_filterMap]
  rfl

theorem Span.Holds.stop_le {span : Span} {source text after : String} (h : span.Holds source text after) :
    span.stop ≤ source.utf8ByteSize := by
  obtain ⟨before, rfl, rfl⟩ := h
  have hsize : (before ++ text ++ after).utf8ByteSize = (before ++ text).utf8ByteSize + after.utf8ByteSize :=
    String.utf8ByteSize_append
  rw [hsize]
  exact Nat.le_add_right _ _

theorem Partitions.ordered {source : String} {L : List Lexeme} (h : Partitions 0 L source) : InOrder L :=
  ⟨h.nonempty, h.disjoint⟩

theorem Partitions.nestedSpan {source : String} {L : List Lexeme} {span : Span} {parts : List NodeTree}
    (h : Partitions 0 L source) (hspan : span.Anchored L) (hrow : InRow L parts span.start span.stop) :
    NestedSpan source L span parts := by
  obtain ⟨l, hl, hstart, _⟩ := hspan.first
  obtain ⟨m, hm, _, hstop⟩ := hspan.last
  obtain ⟨text, after, hholds, _⟩ := h.written m hm
  refine ⟨hspan.nonempty, hstop ▸ hholds.stop_le, ⟨l, hl, hstart⟩, ⟨m, hm, hstop⟩, fun t ht => ?_, hrow.pairwise⟩
  exact ⟨(hrow.within ht).1, (hrow.within ht).2.1⟩

/-- The span of a program reaches from its main class to its last class. -/
theorem Parser.programSpan_eq (main : MainClass) (classes : List ClassDecl) :
    programSpan main classes =
      main.tree.node.span.merge ((classes.getLast?.map ClassDecl.tree).getD main.tree).node.span := by
  rw [programSpan]
  cases classes.getLast? with
  | none =>
      rw [Option.map_none, Option.getD_none, Span.merge, Nat.min_self, Nat.max_self]
      rfl
  | some c => rfl

/-- The trees of a program that was read stand in a row in its span. -/
theorem anchored_of_parse {source : String} {p : Program} (h : parse source = .ok p) :
    ∃ L, scan source = .ok L ∧ Partitions 0 L source ∧ p.span.Anchored L ∧
      InRow L p.trees p.span.start p.span.stop := by
  obtain ⟨L, c, hscan, hrun⟩ := parse_eq_ok.mp h
  have hpartitions : Partitions 0 L source := partitions_of_cut [] rfl (scanFrom_eq_ok_iff.mp hscan)
  rw [Parser.program, Parser.run_get_bind] at hrun
  obtain ⟨_, hrow, hspan⟩ := Parser.programWithin_from _ 0 (Cursor.On.start hpartitions.ordered) rfl hrun
  refine ⟨L, hscan, hpartitions, ?_⟩
  have hlast : p.trees.getLast? = some ((p.classes.getLast?.map ClassDecl.tree).getD p.main.tree) := by
    rw [Program.trees, List.getLast?_cons, List.getLast?_map]
  rw [hspan, Parser.programSpan_eq]
  exact hrow.hull hlast

theorem walkedInOrder_of_parse {source : String} {p : Program} (h : parse source = .ok p) : p.WalkedInOrder := by
  obtain ⟨L, _, _, _, hrow⟩ := anchored_of_parse h
  obtain ⟨hsorted, hbounds⟩ := hrow.starts
  rw [p.preorder_trees] at hsorted hbounds
  obtain ⟨rest, hvisits, hrest⟩ := p.visits_eq
  have hnodes : nodes p.visits = nodes rest := by rw [hvisits]; rfl
  have hstarts : p.visits.filterMap p.startOf? = p.span.start :: (nodes rest).map (·.span.start) := by
    rw [hvisits, nodes, List.map_filterMap]
    refine congrArg (p.span.start :: ·) (List.filterMap_congr fun v hv => ?_)
    cases v with
    | program => exact absurd hv hrest
    | _ => rfl
  refine ⟨?_, ?_, fun n => ?_, ?_⟩
  · rw [hvisits, List.count_cons_self, List.count_eq_zero_of_not_mem hrest]
  · rw [← nodeIds_eq_map]
    exact nodeIds_nodup_of_parse h
  · rw [← p.preorder_trees, mem_preorderAll]
  · rw [hstarts, ← hnodes, List.pairwise_cons, List.forall_mem_map]
    exact ⟨fun n hn => (hbounds n hn).1, hsorted⟩

/-- In a program that was read the spans of the nodes are nested and ordered as the trees are, from token to token,
and a walk follows them through the source text. -/
theorem spans_nested_and_walked_in_order {source : String} {p : Program} (h : parse source = .ok p) :
    (∃ L, scan source = .ok L ∧ NestedSpan source L p.span p.trees ∧
      ∀ u ∈ p.trees, ∀ t : NodeTree, t.Inside u → NestedSpan source L t.node.span t.parts) ∧
    p.WalkedInOrder := by
  obtain ⟨L, hscan, hpartitions, hspan, hrow⟩ := anchored_of_parse h
  refine ⟨⟨L, hscan, hpartitions.nestedSpan hspan hrow, fun u hu t ht => ?_⟩, walkedInOrder_of_parse h⟩
  have hanchored := ht.anchored (hrow.within hu).2.2
  exact hpartitions.nestedSpan hanchored.span hanchored.parts

/-- Parentheses around operands, around the owner of a call and around an argument. -/
def parenthesesSource : String :=
  "class M\x7bpublic static void main(String[] a)\x7bSystem.out.println((1+(x))*(new A()).f((2),y[3]));\x7d\x7d" ++
  "class A\x7bint k;\x7d"

theorem spans_nested_in_parentheses : ∃ p, parse parenthesesSource = .ok p ∧
    (nodes p.visits).map (·.span) = [⟨0, 96⟩, ⟨44, 94⟩, ⟨64, 92⟩, ⟨64, 69⟩, ⟨64, 65⟩, ⟨67, 68⟩, ⟨71, 92⟩, ⟨72, 79⟩,
      ⟨84, 85⟩, ⟨87, 91⟩, ⟨87, 88⟩, ⟨89, 90⟩, ⟨96, 111⟩, ⟨104, 110⟩] ∧
    (∃ L, scan parenthesesSource = .ok L ∧ NestedSpan parenthesesSource L p.span p.trees ∧
      ∀ u ∈ p.trees, ∀ t : NodeTree, t.Inside u → NestedSpan parenthesesSource L t.node.span t.parts) ∧
    p.WalkedInOrder := by
  have hspans : (parse parenthesesSource).toOption.map (fun p => (nodes p.visits).map (·.span)) =
      some [⟨0, 96⟩, ⟨44, 94⟩, ⟨64, 92⟩, ⟨64, 69⟩, ⟨64, 65⟩, ⟨67, 68⟩, ⟨71, 92⟩, ⟨72, 79⟩, ⟨84, 85⟩, ⟨87, 91⟩, ⟨87, 88⟩,
        ⟨89, 90⟩, ⟨96, 111⟩, ⟨104, 110⟩] := by decide +kernel
  obtain ⟨p, hp, hnodes⟩ := Option.map_eq_some_iff.mp hspans
  have hparse : parse parenthesesSource = .ok p := toOption_eq_some.mp hp
  exact ⟨p, hparse, hnodes, spans_nested_and_walked_in_order hparse⟩

end Demitasse
