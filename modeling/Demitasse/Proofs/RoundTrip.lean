import Demitasse.Proofs.AcceptedPrograms
import Demitasse.Proofs.Lexing

/-! Printing and reading again. The text of a tree whose words can be read is read as tokens of the same tree:
not those it was read from, since the parentheses of the text are put by the printer, but of the same shape. -/

namespace Demitasse

/-- `text` is read as `ts`, where something follows that is not part of its last word. -/
def Spells (text : String) (ts : List Token) : Prop :=
  ∀ ⦃cs us⦄, Boundary cs → Lexes cs us → Lexes (text.toList ++ cs) (ts ++ us)

section
variable {c : Char} {cs : List Char} {ts us : List Token}

theorem isWord_spelling (k : Keyword) : IsWord k.spelling.toList := by
  cases k <;> exact ⟨_, _, rfl, by decide, List.all_eq_true.mp (by decide)⟩

theorem lexes_keyword (k : Keyword) (hb : Boundary cs) (hcs : Lexes cs ts) :
    Lexes (k.spelling.toList ++ cs) (.ofKeyword k :: ts) :=
  lexes_word (isWord_spelling k) hb hcs

end

section
variable {α : Type} {D D' : List Token → α → Prop} {ts : List Token} {as : List α}

theorem spells_nil : Spells "" [] :=
  fun _ _ _ hcs => hcs

/-- Texts with a comma and a blank between them. -/
theorem Separated.exists_spells {text : α → String} (h : Separated D ts as) (hts : ∀ t ∈ ts, t.Spelled)
    (hD : ∀ us a, D us a → (∀ t ∈ us, t.Spelled) → ∃ vs, D' vs a ∧ Spells (text a) vs) :
    ∃ vs, Separated D' vs as ∧ Spells (", ".intercalate (as.map text)) vs := by
  induction h with
  | nil => exact ⟨[], .nil, spells_nil⟩
  | one ha =>
      obtain ⟨vs, hvs, htext⟩ := hD _ _ ha hts
      exact ⟨vs, .one hvs, htext⟩
  | cons ha _ ih =>
      obtain ⟨vs, hvs, htext⟩ := hD _ _ ha fun t ht => hts t (by simp [ht])
      obtain ⟨ws, hws, hrest⟩ := ih fun t ht => hts t (by simp [ht])
      refine ⟨_, .cons hvs hws, fun cs us hb hcs => ?_⟩
      simp only [List.map_cons] at hrest ⊢
      simp only [String.intercalate_cons_cons, String.toList_append, String.reduceToList, List.append_assoc,
        List.cons_append, List.nil_append]
      refine htext (boundary_cons (by decide)) (lexes_symbol rfl (lexes_blank rfl ?_))
      exact hrest hb hcs

/-- `text` is whole lines, and read as `ts` whatever follows. -/
def SpellsLines (text : String) (ts : List Token) : Prop :=
  ∀ ⦃cs us⦄, Lexes cs us → Lexes (text.toList ++ cs) (ts ++ us)

/-- Lines behind lines, at any depth. -/
theorem Many.exists_spellsLines {text : Nat → α → String} (h : Many D ts as) (hts : ∀ t ∈ ts, t.Spelled)
    (hD : ∀ us a, D us a → (∀ t ∈ us, t.Spelled) → ∃ vs, D' vs a ∧ ∀ depth, SpellsLines (text depth a) vs) :
    ∃ vs, Many D' vs as ∧ ∀ depth, SpellsLines (String.join (as.map (text depth))) vs := by
  induction h with
  | nil => exact ⟨[], .nil, fun _ _ _ hcs => hcs⟩
  | cons ha _ ih =>
      obtain ⟨vs, hvs, htext⟩ := hD _ _ ha fun t ht => hts t (by simp [ht])
      obtain ⟨ws, hws, hrest⟩ := ih fun t ht => hts t (by simp [ht])
      refine ⟨vs ++ ws, .cons hvs hws, fun depth cs us hcs => ?_⟩
      rw [List.map_cons, String.join_cons, String.toList_append, List.append_assoc, List.append_assoc]
      exact htext depth (hrest depth hcs)

end

theorem lexes_margin {cs : List Char} {ts : List Token} (depth : Nat) (hcs : Lexes cs ts) :
    Lexes ((margin depth).toList ++ cs) ts := by
  rw [margin, String.toList_ofList]
  induction depth with
  | zero => exact hcs
  | succ depth ih =>
      rw [List.replicate_succ]
      exact lexes_blank rfl ih

theorem lexes_line {cs : List Char} {ts : List Token} {text : String} (depth : Nat)
    (h : Lexes (text.toList ++ '\n' :: cs) ts) : Lexes ((line depth text).toList ++ cs) ts := by
  rw [line, String.toList_append, String.toList_append, List.append_assoc, List.append_assoc]
  exact lexes_margin depth h

theorem IsExpr.loosen {ts : List Token} {e : Expr} (h : IsExpr .primary ts e) (lvl : Level) : IsExpr lvl ts e := by
  have hsuffixed : IsExpr .suffixed ts e := .lift (by decide) h
  have hnegation : IsExpr .negation ts e := .lift (by decide) hsuffixed
  have hproduct : IsExpr .product ts e := .lift (by decide) hnegation
  have hsum : IsExpr .sum ts e := .lift (by decide) hproduct
  have hcomparison : IsExpr .comparison ts e := .lift (by decide) hsum
  cases lvl with
  | primary => exact h
  | suffixed => exact hsuffixed
  | negation => exact hnegation
  | product => exact hproduct
  | sum => exact hsum
  | comparison => exact hcomparison
  | conjunction => exact .lift (by decide) hcomparison

theorem IsExpr.conjunction {lvl : Level} {ts : List Token} {e : Expr} (h : IsExpr lvl ts e) :
    IsExpr .conjunction ts e := by
  have hcomparison (h : IsExpr .comparison ts e) : IsExpr .conjunction ts e := .lift (by decide) h
  have hsum (h : IsExpr .sum ts e) : IsExpr .conjunction ts e := hcomparison (.lift (by decide) h)
  have hproduct (h : IsExpr .product ts e) : IsExpr .conjunction ts e := hsum (.lift (by decide) h)
  have hnegation (h : IsExpr .negation ts e) : IsExpr .conjunction ts e := hproduct (.lift (by decide) h)
  cases lvl with
  | primary => exact h.loosen .conjunction
  | suffixed => exact hnegation (.lift (by decide) h)
  | negation => exact hnegation h
  | product => exact hproduct h
  | sum => exact hsum h
  | comparison => exact hcomparison h
  | conjunction => exact h

theorem Expr.renderArgs_eq (args : List Expr) :
    Expr.renderArgs args = ", ".intercalate (args.map Expr.render) := by
  induction args with
  | nil => rfl
  | cons e rest ih =>
      cases rest with
      | nil => rfl
      | cons e' rest =>
          rw [renderArgs_cons, ih]
          simp only [List.map_cons, String.intercalate_cons_cons]

theorem lexes_operator (op : BinOp) {cs : List Char} {ts : List Token} (hcs : Lexes cs ts) :
    Lexes (op.symbol.toList ++ cs) (op.token :: ts) := by
  cases op with
  | and => exact lexes_andAnd hcs
  | less | add | sub | mul => exact lexes_symbol rfl hcs

/-- The text of an expression is read as the same expression. -/
theorem IsExpr.exists_spells {lvl : Level} {ts : List Token} {e : Expr} (h : IsExpr lvl ts e)
    (hts : ∀ t ∈ ts, t.Spelled) : ∃ us, IsExpr .conjunction us e ∧ Spells e.render us := by
  induction h using IsExpr.induct with
  | lift hne h ih => exact ih hts
  | paren h ih => exact ih fun t ht => hts t (by simp [ht])
  | binary node hop hl hr ihl ihr =>
      obtain ⟨ls, hls, hleft⟩ := ihl fun t ht => hts t (by simp [ht])
      obtain ⟨rs, hrs, hright⟩ := ihr fun t ht => hts t (by simp [ht])
      refine ⟨_, (IsExpr.binary node hop ((IsExpr.paren hls).loosen _)
        ((IsExpr.paren hrs).loosen _)).conjunction, fun cs vs hb hcs => ?_⟩
      simp only [Expr.render, String.toList_append, String.reduceToList, List.append_assoc, List.cons_append,
        List.nil_append]
      refine lexes_symbol rfl (hleft (boundary_cons (by decide)) (lexes_symbol rfl (lexes_blank rfl ?_)))
      refine lexes_operator _ (lexes_blank rfl (lexes_symbol rfl (hright (boundary_cons (by decide)) ?_)))
      exact lexes_symbol rfl hcs
  | not node h ih =>
      obtain ⟨us, hus, htext⟩ := ih fun t ht => hts t (by simp [ht])
      refine ⟨_, (IsExpr.not node ((IsExpr.paren hus).loosen _)).conjunction, fun cs vs hb hcs => ?_⟩
      simp only [Expr.render, String.toList_append, String.reduceToList, List.append_assoc, List.cons_append,
        List.nil_append]
      refine lexes_symbol rfl (lexes_symbol rfl (htext (boundary_cons (by decide)) ?_))
      exact lexes_symbol rfl hcs
  | element node ha hi iha ihi =>
      obtain ⟨as, has, harray⟩ := iha fun t ht => hts t (by simp [ht])
      obtain ⟨is, his, hindex⟩ := ihi fun t ht => hts t (by simp [ht])
      refine ⟨_, (IsExpr.element node ((IsExpr.paren has).loosen _) his).conjunction, fun cs vs hb hcs => ?_⟩
      simp only [Expr.render, String.toList_append, String.reduceToList, List.append_assoc, List.cons_append,
        List.nil_append]
      refine lexes_symbol rfl (harray (boundary_cons (by decide)) (lexes_symbol rfl (lexes_symbol rfl ?_)))
      exact hindex (boundary_cons (by decide)) (lexes_symbol rfl hcs)
  | length node h ih =>
      obtain ⟨us, hus, harray⟩ := ih fun t ht => hts t (by simp [ht])
      refine ⟨_, (IsExpr.length node ((IsExpr.paren hus).loosen _)).conjunction, fun cs vs hb hcs => ?_⟩
      have hlength : Lexes ("length".toList ++ cs) (.word "length" :: vs) :=
        lexes_word (hts (.word "length") (by simp)) hb hcs
      simp only [Expr.render, String.toList_append, String.reduceToList, List.append_assoc, List.cons_append,
        List.nil_append] at hlength ⊢
      exact lexes_symbol rfl (harray (boundary_cons (by decide)) (lexes_symbol rfl (lexes_symbol rfl hlength)))
  | call node ho hm hargs iho ihargs =>
      obtain ⟨os, hos, howner⟩ := iho fun t ht => hts t (by simp [ht])
      obtain ⟨as, has, htext⟩ := ihargs.exists_spells (fun t ht => hts t (by simp [ht]))
        fun us e he hus => he.2 hus
      refine ⟨_, (IsExpr.call node ((IsExpr.paren hos).loosen _) hm has).conjunction, fun cs vs hb hcs => ?_⟩
      simp only [Expr.render, Expr.renderArgs_eq, String.toList_append, String.reduceToList, List.append_assoc,
        List.cons_append, List.nil_append]
      refine lexes_symbol rfl (howner (boundary_cons (by decide)) (lexes_symbol rfl (lexes_symbol rfl ?_)))
      refine lexes_word (hts (.word _) (by simp)) (boundary_cons (by decide)) (lexes_symbol rfl ?_)
      exact htext (boundary_cons (by decide)) (lexes_symbol rfl hcs)
  | int node h =>
      refine ⟨_, (IsExpr.int node h).conjunction, fun cs vs hb hcs => ?_⟩
      exact lexes_integer (Nat.le_trans h (by decide)) hb hcs
  | bool node value =>
      refine ⟨_, (IsExpr.bool node value).conjunction, fun cs vs hb hcs => ?_⟩
      cases value with
      | false => exact lexes_keyword .kwFalse hb hcs
      | true => exact lexes_keyword .kwTrue hb hcs
  | @var node name h =>
      refine ⟨_, (IsExpr.var node h).conjunction, fun cs vs hb hcs => ?_⟩
      exact lexes_word (hts (.word name) List.mem_cons_self) hb hcs
  | this node =>
      refine ⟨_, (IsExpr.this node).conjunction, fun cs vs hb hcs => ?_⟩
      exact lexes_keyword .kwThis hb hcs
  | newArray node h ih =>
      obtain ⟨us, hus, hsize⟩ := ih fun t ht => hts t (by simp [ht])
      refine ⟨_, (IsExpr.newArray node hus).conjunction, fun cs vs hb hcs => ?_⟩
      simp only [Expr.render, String.toList_append, String.reduceToList, List.append_assoc, List.cons_append,
        List.nil_append]
      refine lexes_keyword .kwNew (boundary_cons (by decide)) (lexes_blank rfl ?_)
      refine lexes_keyword .kwInt (boundary_cons (by decide)) (lexes_symbol rfl ?_)
      exact hsize (boundary_cons (by decide)) (lexes_symbol rfl hcs)
  | newObject node h =>
      refine ⟨_, (IsExpr.newObject node h).conjunction, fun cs vs hb hcs => ?_⟩
      simp only [Expr.render, String.toList_append, String.reduceToList, List.append_assoc, List.cons_append,
        List.nil_append]
      refine lexes_keyword .kwNew (boundary_cons (by decide)) (lexes_blank rfl ?_)
      refine lexes_word (hts (.word _) (by simp)) (boundary_cons (by decide)) ?_
      exact lexes_symbol rfl (lexes_symbol rfl hcs)

theorem Stmt.renderAll_eq (depth : Nat) (ss : List Stmt) :
    Stmt.renderAll depth ss = String.join (ss.map (Stmt.render depth)) := by
  induction ss with
  | nil => rfl
  | cons s rest ih => rw [Stmt.renderAll, ih, List.map_cons, String.join_cons]

/-- The text of a statement is read as the same statement. -/
theorem IsStmt.exists_spellsLines {ts : List Token} {s : Stmt} (h : IsStmt ts s) (hts : ∀ t ∈ ts, t.Spelled) :
    ∃ us, IsStmt us s ∧ ∀ depth, SpellsLines (s.render depth) us := by
  induction h using IsStmt.induct with
  | block node h ih =>
      obtain ⟨us, hus, htext⟩ := ih.exists_spellsLines (fun t ht => hts t (by simp [ht]))
        fun us s hs hus => hs.2 hus
      refine ⟨_, .block node hus, fun depth cs vs hcs => ?_⟩
      simp only [Stmt.render, Stmt.renderAll_eq, String.toList_append, List.append_assoc, List.cons_append,
        List.nil_append]
      refine lexes_line depth (lexes_symbol rfl (lexes_blank rfl (htext (depth + 1) (lexes_line depth ?_))))
      exact lexes_symbol rfl (lexes_blank rfl hcs)
  | ifElse node hc ht he iht ihe =>
      obtain ⟨cs', hcs', hcond⟩ := hc.exists_spells fun t ht => hts t (by simp [ht])
      obtain ⟨us, hus, hthen⟩ := iht fun t ht => hts t (by simp [ht])
      obtain ⟨vs, hvs, helse⟩ := ihe fun t ht => hts t (by simp [ht])
      refine ⟨_, .ifElse node hcs' hus hvs, fun depth cs ws hcs => ?_⟩
      simp only [Stmt.render, String.toList_append, List.append_assoc, List.cons_append]
      refine lexes_line depth ?_
      simp only [String.toList_append, String.reduceToList, List.append_assoc, List.cons_append, List.nil_append]
      refine lexes_keyword .kwIf (boundary_cons (by decide)) (lexes_blank rfl (lexes_symbol rfl ?_))
      refine hcond (boundary_cons (by decide)) (lexes_symbol rfl (lexes_blank rfl (hthen _ ?_)))
      refine lexes_line depth (lexes_keyword .kwElse (boundary_cons (by decide)) (lexes_blank rfl ?_))
      exact helse _ hcs
  | loop node hc hb ihb =>
      obtain ⟨cs', hcs', hcond⟩ := hc.exists_spells fun t ht => hts t (by simp [ht])
      obtain ⟨us, hus, hbody⟩ := ihb fun t ht => hts t (by simp [ht])
      refine ⟨_, .loop node hcs' hus, fun depth cs ws hcs => ?_⟩
      simp only [Stmt.render, String.toList_append, List.append_assoc, List.cons_append]
      refine lexes_line depth ?_
      simp only [String.toList_append, String.reduceToList, List.append_assoc, List.cons_append, List.nil_append]
      refine lexes_keyword .kwWhile (boundary_cons (by decide)) (lexes_blank rfl (lexes_symbol rfl ?_))
      exact hcond (boundary_cons (by decide)) (lexes_symbol rfl (lexes_blank rfl (hbody _ hcs)))
  | print node h =>
      obtain ⟨us, hus, harg⟩ := h.exists_spells fun t ht => hts t (by simp [ht])
      refine ⟨_, .print node hus, fun depth cs ws hcs => lexes_line depth ?_⟩
      simp only [String.toList_append, String.reduceToList, List.append_assoc, List.cons_append, List.nil_append]
      refine lexes_println (lexes_symbol rfl (harg (boundary_cons (by decide)) ?_))
      exact lexes_symbol rfl (lexes_symbol rfl (lexes_blank rfl hcs))
  | assign node hn hv =>
      obtain ⟨us, hus, hvalue⟩ := hv.exists_spells fun t ht => hts t (by simp [ht])
      refine ⟨_, .assign node hn hus, fun depth cs ws hcs => lexes_line depth ?_⟩
      simp only [String.toList_append, String.reduceToList, List.append_assoc, List.cons_append, List.nil_append]
      refine lexes_word (hts (.word _) List.mem_cons_self) (boundary_cons (by decide)) (lexes_blank rfl ?_)
      refine lexes_symbol rfl (lexes_blank rfl (hvalue (boundary_cons (by decide)) ?_))
      exact lexes_symbol rfl (lexes_blank rfl hcs)
  | assignElement node hn hi hv =>
      obtain ⟨is, his, hindex⟩ := hi.exists_spells fun t ht => hts t (by simp [ht])
      obtain ⟨us, hus, hvalue⟩ := hv.exists_spells fun t ht => hts t (by simp [ht])
      refine ⟨_, .assignElement node hn his hus, fun depth cs ws hcs => lexes_line depth ?_⟩
      simp only [String.toList_append, String.reduceToList, List.append_assoc, List.cons_append, List.nil_append]
      refine lexes_word (hts (.word _) List.mem_cons_self) (boundary_cons (by decide)) (lexes_symbol rfl ?_)
      refine hindex (boundary_cons (by decide)) (lexes_symbol rfl (lexes_blank rfl (lexes_symbol rfl ?_)))
      refine lexes_blank rfl (hvalue (boundary_cons (by decide)) (lexes_symbol rfl ?_))
      exact lexes_blank rfl hcs

theorem IsType.spells {ts : List Token} {ty : Ty} (h : IsType ts ty) (hts : ∀ t ∈ ts, t.Spelled) :
    Spells ty.spelling ts := by
  intro cs us hb hcs
  cases h with
  | int => exact lexes_keyword .kwInt hb hcs
  | boolean => exact lexes_keyword .kwBoolean hb hcs
  | object hname => exact lexes_word (hts (.word _) List.mem_cons_self) hb hcs
  | intArray =>
      simp only [Ty.spelling, String.reduceToList, List.cons_append, List.nil_append]
      exact lexes_keyword .kwInt (boundary_cons (by decide)) (lexes_symbol rfl (lexes_symbol rfl hcs))

theorem lexes_binding {ts us : List Token} {cs : List Char} {v : VarDecl} (h : IsType ts v.ty)
    (hts : ∀ t ∈ ts, t.Spelled) (hname : IsWord v.name.toList) (hb : Boundary cs) (hcs : Lexes cs us) :
    Lexes (v.binding.toList ++ cs) (ts ++ .word v.name :: us) := by
  simp only [VarDecl.binding, String.toList_append, String.reduceToList, List.append_assoc, List.cons_append,
    List.nil_append]
  exact h.spells hts (boundary_cons (by decide)) (lexes_blank rfl (lexes_word hname hb hcs))

theorem IsFormal.spells {ts : List Token} {v : VarDecl} (h : IsFormal ts v) (hts : ∀ t ∈ ts, t.Spelled) :
    Spells v.binding ts := by
  obtain ⟨hty, -⟩ := h
  intro cs us hb hcs
  rw [List.append_assoc]
  exact lexes_binding hty (fun t ht => hts t (by simp [ht])) (hts (.word v.name) (by simp)) hb hcs

theorem IsVarDecl.spellsLines {ts : List Token} {v : VarDecl} (h : IsVarDecl ts v)
    (hts : ∀ t ∈ ts, t.Spelled) (depth : Nat) : SpellsLines (v.render depth) ts := by
  obtain ⟨hty, -⟩ := h
  intro cs us hcs
  refine lexes_line depth ?_
  simp only [String.toList_append, String.reduceToList, List.append_assoc, List.cons_append, List.nil_append]
  refine lexes_binding hty (fun t ht => hts t (by simp [ht])) (hts (.word v.name) (by simp))
    (boundary_cons (by decide)) ?_
  exact lexes_symbol rfl (lexes_blank rfl hcs)

theorem IsMethod.exists_spellsLines {ts : List Token} {m : MethodDecl} (h : IsMethod ts m)
    (hts : ∀ t ∈ ts, t.Spelled) : ∃ us, IsMethod us m ∧ ∀ depth, SpellsLines (m.render depth) us := by
  obtain ⟨-, hty, hname, hfs, hvs, hbs, hrs⟩ := h
  obtain ⟨fs, hfs, hformals⟩ := hfs.exists_spells (fun t ht => hts t (by simp [ht]))
    fun us v hv hus => ⟨us, hv, hv.spells hus⟩
  obtain ⟨vs, hvs, hlocals⟩ := hvs.exists_spellsLines (fun t ht => hts t (by simp [ht]))
    fun us v hv hus => ⟨us, hv, hv.spellsLines hus⟩
  obtain ⟨bs, hbs, hbody⟩ := hbs.exists_spellsLines (fun t ht => hts t (by simp [ht]))
    fun us s hs hus => hs.exists_spellsLines hus
  obtain ⟨rs, hrs, hresult⟩ := hrs.exists_spells fun t ht => hts t (by simp [ht])
  have hword : IsWord m.name.toList := hts (.word m.name) (by simp)
  refine ⟨_, .mk (Or.inr rfl) hty hname hfs hvs hbs hrs, fun depth cs us hcs => ?_⟩
  simp only [MethodDecl.render, Stmt.renderAll_eq, String.toList_append, List.append_assoc, List.cons_append,
    List.nil_append]
  refine lexes_line depth ?_
  simp only [String.toList_append, String.reduceToList, List.append_assoc, List.cons_append, List.nil_append]
  refine lexes_keyword .kwPublic (boundary_cons (by decide)) (lexes_blank rfl ?_)
  refine hty.spells (fun t ht => hts t (by simp [ht])) (boundary_cons (by decide)) (lexes_blank rfl ?_)
  refine lexes_word hword (boundary_cons (by decide)) (lexes_symbol rfl ?_)
  refine hformals (boundary_cons (by decide)) (lexes_symbol rfl (lexes_blank rfl (lexes_symbol rfl ?_)))
  refine lexes_blank rfl (hlocals _ (hbody _ (lexes_line (depth + 1) ?_)))
  simp only [String.toList_append, String.reduceToList, List.append_assoc, List.cons_append, List.nil_append]
  refine lexes_keyword .kwReturn (boundary_cons (by decide)) (lexes_blank rfl ?_)
  refine hresult (boundary_cons (by decide)) (lexes_symbol rfl (lexes_blank rfl (lexes_line depth ?_)))
  exact lexes_symbol rfl (lexes_blank rfl hcs)

theorem IsExtension.spells {ts : List Token} {c : ClassDecl} (h : IsExtension ts c.superName)
    (hts : ∀ t ∈ ts, t.Spelled) : Spells c.extension ts := by
  intro cs us hb hcs
  rw [ClassDecl.extension]
  generalize c.superName = superName at h
  cases h with
  | none => exact hcs
  | some hname =>
      simp only [String.toList_append, String.reduceToList, List.cons_append, List.nil_append]
      refine lexes_blank rfl (lexes_keyword .kwExtends (boundary_cons (by decide)) (lexes_blank rfl ?_))
      exact lexes_word (hts (.word _) (by simp)) hb hcs

theorem boundary_extension (c : ClassDecl) {cs : List Char} (hb : Boundary cs) :
    Boundary (c.extension.toList ++ cs) := by
  rw [ClassDecl.extension]
  split
  · simp only [String.toList_append, String.reduceToList, List.cons_append]
    exact boundary_cons (by decide)
  · exact hb

theorem IsClass.exists_spellsLines {ts : List Token} {c : ClassDecl} (h : IsClass ts c)
    (hts : ∀ t ∈ ts, t.Spelled) : ∃ us, IsClass us c ∧ ∀ depth, SpellsLines (c.render depth) us := by
  obtain ⟨hname, hsuper, hfs, hms⟩ := h
  obtain ⟨fs, hfs, hfields⟩ := hfs.exists_spellsLines (fun t ht => hts t (by simp [ht]))
    fun us v hv hus => ⟨us, hv, hv.spellsLines hus⟩
  obtain ⟨ms, hms, hmethods⟩ := hms.exists_spellsLines (fun t ht => hts t (by simp [ht]))
    fun us m hm hus => hm.exists_spellsLines hus
  have hword : IsWord c.name.toList := hts (.word c.name) (by simp)
  refine ⟨_, .mk hname hsuper hfs hms, fun depth cs us hcs => ?_⟩
  simp only [ClassDecl.render, String.toList_append, List.append_assoc, List.cons_append, List.nil_append]
  refine lexes_line depth ?_
  simp only [String.toList_append, String.reduceToList, List.append_assoc, List.cons_append, List.nil_append]
  refine lexes_keyword .kwClass (boundary_cons (by decide)) (lexes_blank rfl ?_)
  refine lexes_word hword (boundary_extension c (boundary_cons (by decide))) ?_
  refine hsuper.spells (fun t ht => hts t (by simp [ht])) (boundary_cons (by decide)) (lexes_blank rfl ?_)
  refine lexes_symbol rfl (lexes_blank rfl (hfields _ (hmethods _ (lexes_line depth ?_))))
  exact lexes_symbol rfl (lexes_blank rfl hcs)

theorem IsMain.exists_spellsLines {ts : List Token} {c : MainClass} (h : IsMain ts c)
    (hts : ∀ t ∈ ts, t.Spelled) : ∃ us, IsMain us c ∧ SpellsLines (c.render 0) us := by
  obtain ⟨hname, hargs, hbody⟩ := h
  obtain ⟨bs, hbs, htext⟩ := hbody.exists_spellsLines fun t ht => hts t (by simp [ht])
  have hword : IsWord c.name.toList := hts (.word c.name) (by simp)
  have hargsWord : IsWord c.argsName.toList := hts (.word c.argsName) (by simp)
  refine ⟨_, .mk hname hargs hbs, fun cs us hcs => ?_⟩
  simp only [MainClass.render, String.toList_append, List.append_assoc, List.cons_append, List.nil_append]
  refine lexes_line 0 ?_
  simp only [String.toList_append, String.reduceToList, List.append_assoc, List.cons_append, List.nil_append]
  refine lexes_keyword .kwClass (boundary_cons (by decide)) (lexes_blank rfl ?_)
  refine lexes_word hword (boundary_cons (by decide)) (lexes_blank rfl (lexes_symbol rfl ?_))
  refine lexes_blank rfl (lexes_line 1 ?_)
  simp only [String.toList_append, String.reduceToList, List.append_assoc, List.cons_append, List.nil_append]
  refine lexes_keyword .kwPublic (boundary_cons (by decide)) (lexes_blank rfl ?_)
  refine lexes_keyword .kwStatic (boundary_cons (by decide)) (lexes_blank rfl ?_)
  refine lexes_keyword .kwVoid (boundary_cons (by decide)) (lexes_blank rfl ?_)
  refine lexes_word (hts (.word "main") (by simp)) (boundary_cons (by decide)) (lexes_symbol rfl ?_)
  refine lexes_word (hts (.word "String") (by simp)) (boundary_cons (by decide)) (lexes_symbol rfl ?_)
  refine lexes_symbol rfl (lexes_blank rfl (lexes_word hargsWord (boundary_cons (by decide)) ?_))
  refine lexes_symbol rfl (lexes_blank rfl (lexes_symbol rfl (lexes_blank rfl (htext 2 ?_))))
  refine lexes_line 1 (lexes_symbol rfl (lexes_blank rfl (lexes_line 0 ?_)))
  exact lexes_symbol rfl (lexes_blank rfl hcs)

/-- The text of a program is read as tokens of the same program. -/
theorem IsProgram.exists_lexes {ts : List Token} {p : Program} (h : IsProgram ts p)
    (hts : ∀ t ∈ ts, t.Spelled) : ∃ us, IsProgram us p ∧ Lexes p.render.toList us := by
  obtain ⟨hmain, hclasses⟩ := h
  obtain ⟨ms, hms, hmainText⟩ := hmain.exists_spellsLines fun t ht => hts t (by simp [ht])
  have hclass : ∀ us c, IsClass us c → (∀ t ∈ us, t.Spelled) →
      ∃ vs, IsClass vs c ∧ ∀ depth, SpellsLines ("\n" ++ c.render depth) vs := by
    intro us c hc hus
    obtain ⟨vs, hvs, htext⟩ := hc.exists_spellsLines hus
    refine ⟨vs, hvs, fun depth cs ws hcs => ?_⟩
    simp only [String.toList_append, String.reduceToList, List.cons_append, List.nil_append]
    exact lexes_blank rfl (htext depth hcs)
  obtain ⟨cs, hcs, hclassText⟩ := hclasses.exists_spellsLines (fun t ht => hts t (by simp [ht])) hclass
  refine ⟨ms ++ cs, .mk hms hcs, ?_⟩
  have htext := hmainText (hclassText 0 lexes_nil)
  rw [List.append_nil, List.append_nil] at htext
  rw [Program.render, String.toList_append]
  exact htext

theorem spelled_of_parse {source : String} {p : Program} (h : parse source = .ok p) :
    ∃ ts, IsProgram ts p ∧ ∀ t ∈ ts, t.Spelled := by
  obtain ⟨lexemes, c, hscan, hrun⟩ := parse_eq_ok.mp h
  obtain ⟨ts, hts, hreads⟩ := Parser.program_sound hrun
  refine ⟨ts, hts, fun t ht => ?_⟩
  have hmem : t ∈ (Cursor.start lexemes).tokens := by
    rw [hreads.tokens]
    exact List.mem_append_left _ ht
  obtain ⟨lexeme, hlexeme, rfl⟩ := List.mem_map.mp hmem
  exact spelled_of_scanFrom hscan lexeme hlexeme

theorem exists_parse_of_lexes {text : String} {ts : List Token} {p : Program} (hp : IsProgram ts p)
    (htext : Lexes text.toList ts) : ∃ q, parse text = .ok q ∧ q.mapNodes Node.blank = p.mapNodes Node.blank := by
  obtain ⟨lexemes, hscan, rfl⟩ := htext
  obtain ⟨q, c, hrun, hshape, -⟩ := Parser.program_yields (c := .start lexemes) hp rfl
  exact ⟨q, parse_eq_ok.mpr ⟨lexemes, c, hscan, hrun⟩, hshape⟩

/-- The text of a program that was read is read as a program that differs from it in spans only: every name,
type, list of declarations and tree is the same, and so is the identity of every node. Printing that program
gives the same text again. -/
theorem parse_render {source : String} {p : Program} (h : parse source = .ok p) :
    ∃ q, parse p.render = .ok q ∧ q.withoutSpans = p.withoutSpans ∧ q.render = p.render := by
  obtain ⟨ts, hts, hspelled⟩ := spelled_of_parse h
  obtain ⟨us, hus, htext⟩ := hts.exists_lexes hspelled
  obtain ⟨q, hq, hshape⟩ := exists_parse_of_lexes hus htext
  obtain ⟨hlength, hsettled⟩ := q.settled p hshape
  have hids : q.ids = p.ids := by
    rw [ids_of_parse hq, ids_of_parse h, hlength]
  have hspans : q.withoutSpans = p.withoutSpans := hsettled hids
  refine ⟨q, hq, hspans, ?_⟩
  calc q.render = q.withoutSpans.render := (q.render_mapNodes Node.withoutSpan).symm
    _ = p.withoutSpans.render := by rw [hspans]
    _ = p.render := p.render_mapNodes Node.withoutSpan

/-- A method that is called like the length of an array, and operators that bind in the other order. -/
def lengths : String :=
  "class A \x7b public static void main(String[] b) \x7b x=y.length(2-(3-4)*5)[!z].length; \x7d \x7d"

/-- How `lengths` is printed. -/
def lengthsText : String :=
  "class A \x7b\n\tpublic static void main(String[] b) \x7b\n\t\t" ++
    "x = (((y).length((2) - (((3) - (4)) * (5))))[!(z)]).length;\n\t\x7d\n\x7d\n"

theorem parse_render_lengths : ∃ p q, parse lengths = .ok p ∧ p.render = lengthsText ∧
    parse lengthsText = .ok q ∧ q.withoutSpans = p.withoutSpans ∧ q.render = lengthsText := by
  have hlengths : (parse lengths).toOption.map Program.render = some lengthsText := by decide +kernel
  generalize hparse : parse lengths = outcome at hlengths ⊢
  cases outcome with
  | error e => cases hlengths
  | ok p =>
      obtain ⟨q, hq, hspans, hrender⟩ := parse_render hparse
      have htext : p.render = lengthsText := Option.some.inj hlengths
      rw [htext] at hq hrender
      exact ⟨p, q, rfl, htext, hq, hspans, hrender⟩

end Demitasse
