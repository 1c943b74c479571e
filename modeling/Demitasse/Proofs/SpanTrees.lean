import Mathlib.Data.List.Pairwise
import Demitasse.Proofs.NodeTrees

/-! Trees of nodes whose spans follow the lexemes of a text. A node reaches from the start of a lexeme to the end of
one, and its parts stand in a row inside it, each behind the one before. A walk that meets every node before its
parts then goes through the text from left to right. -/

namespace Demitasse

/-- A span reaches from the start of a lexeme to the end of the same or another one. -/
structure Span.Anchored (L : List Lexeme) (span : Span) : Prop where
  nonempty : span.start < span.stop
  first : ∃ l ∈ L, l.span.start = span.start ∧ l.span.stop ≤ span.stop
  last : ∃ l ∈ L, span.start ≤ l.span.start ∧ l.span.stop = span.stop

namespace NodeTree

mutual

/-- All nodes of a tree reach from lexeme to lexeme, and the parts of each one stand in a row inside it. -/
def Anchored (L : List Lexeme) : NodeTree → Prop
  | .mk node parts => node.span.Anchored L ∧ InRow L parts node.span.start node.span.stop

/-- Trees stand in a row between two bytes, each one behind the one before. -/
def InRow (L : List Lexeme) : List NodeTree → (lo hi : Nat) → Prop
  | [], lo, hi => lo ≤ hi
  | t :: rest, lo, hi => lo ≤ t.node.span.start ∧ t.Anchored L ∧ InRow L rest t.node.span.stop hi

end

variable {L : List Lexeme} {t u : NodeTree} {ts us : List NodeTree} {lo mid hi : Nat}

theorem Anchored.span (h : t.Anchored L) : t.node.span.Anchored L := by
  cases t with
  | mk node parts => exact h.1

theorem Anchored.parts (h : t.Anchored L) : InRow L t.parts t.node.span.start t.node.span.stop := by
  cases t with
  | mk node parts => exact h.2

theorem inRow_nil : InRow L [] lo hi ↔ lo ≤ hi := by
  rw [InRow]

theorem inRow_refl (lo : Nat) : InRow L [] lo lo :=
  inRow_nil.mpr (Nat.le_refl lo)

theorem inRow_cons :
    InRow L (t :: ts) lo hi ↔ lo ≤ t.node.span.start ∧ t.Anchored L ∧ InRow L ts t.node.span.stop hi := by
  rw [InRow]

theorem InRow.of_le {lo' : Nat} (h : InRow L ts lo hi) (hlo : lo' ≤ lo) : InRow L ts lo' hi := by
  cases ts with
  | nil => exact inRow_nil.mpr (Nat.le_trans hlo (inRow_nil.mp h))
  | cons t ts =>
      obtain ⟨hstart, ht, hrest⟩ := inRow_cons.mp h
      exact inRow_cons.mpr ⟨Nat.le_trans hlo hstart, ht, hrest⟩

theorem InRow.le (h : InRow L ts lo hi) : lo ≤ hi := by
  induction ts generalizing lo with
  | nil => exact inRow_nil.mp h
  | cons t ts ih =>
      obtain ⟨hstart, ht, hrest⟩ := inRow_cons.mp h
      have hnonempty := ht.span.nonempty
      have hle := ih hrest
      omega

theorem InRow.append (h : InRow L ts lo mid) (h' : InRow L us mid hi) : InRow L (ts ++ us) lo hi := by
  induction ts generalizing lo with
  | nil => exact h'.of_le (inRow_nil.mp h)
  | cons t ts ih =>
      obtain ⟨hstart, ht, hrest⟩ := inRow_cons.mp h
      exact inRow_cons.mpr ⟨hstart, ht, ih hrest⟩

/-- Behind a row there may be more room. -/
theorem InRow.mono (h : InRow L ts lo mid) (hhi : mid ≤ hi) : InRow L ts lo hi := by
  rw [← List.append_nil ts]
  exact h.append (inRow_nil.mpr hhi)

theorem inRow_singleton :
    InRow L [t] lo hi ↔ lo ≤ t.node.span.start ∧ t.Anchored L ∧ t.node.span.stop ≤ hi := by
  rw [inRow_cons, inRow_nil]

/-- All trees of a row are within its bounds. -/
theorem InRow.within (h : InRow L ts lo hi) (ht : t ∈ ts) :
    lo ≤ t.node.span.start ∧ t.node.span.stop ≤ hi ∧ t.Anchored L := by
  induction ts generalizing lo with
  | nil => cases ht
  | cons u ts ih =>
      obtain ⟨hstart, hu, hrest⟩ := inRow_cons.mp h
      rcases List.mem_cons.mp ht with rfl | ht
      · exact ⟨hstart, hrest.le, hu⟩
      · obtain ⟨hle, hhi, hanchored⟩ := ih hrest ht
        have hnonempty := hu.span.nonempty
        exact ⟨by omega, hhi, hanchored⟩

/-- Of two trees of a row, the first one ends before the second one starts. -/
theorem InRow.pairwise (h : InRow L ts lo hi) : ts.Pairwise fun t u => t.node.span.stop ≤ u.node.span.start := by
  induction ts generalizing lo with
  | nil => exact .nil
  | cons t ts ih =>
      obtain ⟨_, _, hrest⟩ := inRow_cons.mp h
      exact .cons (fun u hu => (hrest.within hu).1) (ih hrest)

/-- A row ends with its last tree. -/
theorem InRow.up_to_last (h : InRow L ts lo hi) (hu : ts.getLast? = some u) : InRow L ts lo u.node.span.stop := by
  induction ts generalizing lo with
  | nil => cases hu
  | cons t ts ih =>
      obtain ⟨hstart, ht, hrest⟩ := inRow_cons.mp h
      cases ts with
      | nil =>
          cases hu
          exact inRow_singleton.mpr ⟨hstart, ht, Nat.le_refl _⟩
      | cons s ts => exact inRow_cons.mpr ⟨hstart, ht, ih hrest hu⟩

/-- From the start of its first tree to the end of its last one, a row reaches from lexeme to lexeme. -/
theorem InRow.hull (h : InRow L (t :: ts) lo hi) (hu : (t :: ts).getLast? = some u) :
    (t.node.span.merge u.node.span).Anchored L ∧
      InRow L (t :: ts) (t.node.span.merge u.node.span).start (t.node.span.merge u.node.span).stop := by
  obtain ⟨hstart, ht, hrest⟩ := inRow_cons.mp h
  obtain ⟨_, _, hlast⟩ := h.within (List.mem_of_getLast? hu)
  have hrow : InRow L (t :: ts) t.node.span.start u.node.span.stop :=
    (inRow_cons.mpr ⟨Nat.le_refl _, ht, hrest⟩ : InRow L (t :: ts) t.node.span.start hi).up_to_last hu
  have hfirst := hrow.within List.mem_cons_self
  have hbehind := hrow.within (List.mem_of_getLast? hu)
  have hspan : t.node.span.merge u.node.span = ⟨t.node.span.start, u.node.span.stop⟩ := by
    rw [Span.merge, Nat.min_eq_left hbehind.1, Nat.max_eq_right hfirst.2.1]
  have hnonempty := ht.span.nonempty
  obtain ⟨l, hl, hstart, hstop⟩ := ht.span.first
  obtain ⟨m, hm, hstart', hstop'⟩ := hlast.span.last
  rw [hspan]
  refine ⟨⟨Nat.lt_of_lt_of_le hnonempty hfirst.2.1, ?_, ?_⟩, hrow⟩
  · exact ⟨l, hl, hstart, Nat.le_trans hstop hfirst.2.1⟩
  · exact ⟨m, hm, Nat.le_trans hbehind.1 hstart', hstop'⟩

theorem Inside.anchored (h : t.Inside u) (hu : u.Anchored L) : t.Anchored L := by
  induction h with
  | self => exact hu
  | part hs _ ih => exact ih (hu.parts.within hs).2.2

mutual

/-- The nodes of a tree, each one before its parts, start one after the other. -/
theorem Anchored.starts : ∀ {t : NodeTree}, t.Anchored L →
    (t.preorder.map (·.span.start)).Pairwise (· ≤ ·) ∧
      ∀ n ∈ t.preorder, t.node.span.start ≤ n.span.start ∧ n.span.start ≤ t.node.span.stop
  | .mk node parts, h => by
      obtain ⟨hsorted, hbounds⟩ := InRow.starts h.2
      have hnonempty := h.1.nonempty
      rw [preorder, List.map_cons, List.pairwise_cons]
      refine ⟨⟨?_, hsorted⟩, List.forall_mem_cons.mpr ⟨⟨Nat.le_refl _, Nat.le_of_lt hnonempty⟩, hbounds⟩⟩
      rw [List.forall_mem_map]
      exact fun n hn => (hbounds n hn).1

theorem InRow.starts : ∀ {ts : List NodeTree} {lo hi : Nat}, InRow L ts lo hi →
    ((preorderAll ts).map (·.span.start)).Pairwise (· ≤ ·) ∧
      ∀ n ∈ preorderAll ts, lo ≤ n.span.start ∧ n.span.start ≤ hi
  | [], _, _, _ => ⟨.nil, List.forall_mem_nil _⟩
  | t :: ts, lo, hi, h => by
      obtain ⟨hstart, ht, hrest⟩ := inRow_cons.mp h
      obtain ⟨hsorted, hbounds⟩ := ht.starts
      obtain ⟨hsorted', hbounds'⟩ := hrest.starts
      have hnonempty := ht.span.nonempty
      have hle := hrest.le
      rw [preorderAll, List.map_append, List.pairwise_append, List.forall_mem_append]
      refine ⟨⟨hsorted, hsorted', ?_⟩, fun n hn => ?_, fun n hn => ?_⟩
      · simp only [List.forall_mem_map]
        exact fun n hn m hm => Nat.le_trans (hbounds n hn).2 (hbounds' m hm).1
      · have := hbounds n hn
        omega
      · have := hbounds' n hn
        omega

end

mutual

/-- A walk over a tree meets the tops of the trees inside it. -/
theorem mem_preorder : ∀ {t : NodeTree} {n : Node}, n ∈ t.preorder ↔ ∃ s : NodeTree, s.Inside t ∧ s.node = n
  | .mk node parts, n => by
      rw [preorder, List.mem_cons, mem_preorderAll]
      constructor
      · rintro (rfl | ⟨u, hu, s, hs, rfl⟩)
        · exact ⟨_, .self, rfl⟩
        · exact ⟨s, .part hu hs, rfl⟩
      · rintro ⟨s, hs, rfl⟩
        cases hs with
        | self => exact .inl rfl
        | part hu hs => exact .inr ⟨_, hu, s, hs, rfl⟩

theorem mem_preorderAll : ∀ {ts : List NodeTree} {n : Node},
    n ∈ preorderAll ts ↔ ∃ t ∈ ts, ∃ s : NodeTree, s.Inside t ∧ s.node = n
  | [], n => by simp
  | t :: ts, n => by
      rw [preorderAll, List.mem_append, mem_preorder, mem_preorderAll, List.exists_mem_cons_iff]

end

end NodeTree

mutual

theorem Expr.program_notMem_visits : ∀ e : Expr, .program ∉ e.visits
  | .binary _ _ left right => by simp [visits, left.program_notMem_visits, right.program_notMem_visits]
  | .element _ array index => by simp [visits, array.program_notMem_visits, index.program_notMem_visits]
  | .length _ array => by simp [visits, array.program_notMem_visits]
  | .call _ owner _ args => by simp [visits, owner.program_notMem_visits, program_notMem_visitsAll args]
  | .newArray _ size => by simp [visits, size.program_notMem_visits]
  | .not _ operand => by simp [visits, operand.program_notMem_visits]
  | .int .. | .bool .. | .var .. | .this _ | .newObject .. => by simp [visits]

theorem Expr.program_notMem_visitsAll : ∀ es : List Expr, .program ∉ Expr.visitsAll es
  | [] => by simp [visitsAll]
  | e :: rest => by simp [visitsAll, e.program_notMem_visits, program_notMem_visitsAll rest]

end

mutual

theorem Stmt.program_notMem_visits : ∀ s : Stmt, .program ∉ s.visits
  | .block _ body => by simp [visits, program_notMem_visitsAll body]
  | .ifElse _ cond thenBranch elseBranch => by
      simp [visits, cond.program_notMem_visits, thenBranch.program_notMem_visits, elseBranch.program_notMem_visits]
  | .loop _ cond body => by simp [visits, cond.program_notMem_visits, body.program_notMem_visits]
  | .print _ arg => by simp [visits, arg.program_notMem_visits]
  | .assign _ _ value => by simp [visits, value.program_notMem_visits]
  | .assignElement _ _ index value => by simp [visits, index.program_notMem_visits, value.program_notMem_visits]

theorem Stmt.program_notMem_visitsAll : ∀ ss : List Stmt, .program ∉ Stmt.visitsAll ss
  | [] => by simp [visitsAll]
  | s :: rest => by simp [visitsAll, s.program_notMem_visits, program_notMem_visitsAll rest]

end

theorem MethodDecl.program_notMem_visits (m : MethodDecl) : .program ∉ m.visits := by
  simp [visits, VarDecl.visits, VarDecl.formalVisits, Stmt.program_notMem_visitsAll, Expr.program_notMem_visits]

theorem ClassDecl.program_notMem_visits (c : ClassDecl) : .program ∉ c.visits := by
  simp [visits, VarDecl.visits, MethodDecl.program_notMem_visits]

/-- A walk over a program starts with the program and does not come back to it. -/
theorem Program.visits_eq (p : Program) :
    ∃ rest, p.visits = .program :: rest ∧ .program ∉ rest := by
  refine ⟨_, rfl, ?_⟩
  simp [MainClass.visits, Stmt.program_notMem_visits, ClassDecl.program_notMem_visits]

end Demitasse
