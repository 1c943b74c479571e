import Demitasse.Proofs.Acceptance

/-! Every program of the grammar is read off its tokens, up to the nodes. A statement or a declaration ends
with a token of its own, so anything may follow it; where fields, locals and statements meet, a look ahead
tells them apart. -/

namespace Demitasse

theorem IsStmt.headNe {ts : List Token} {s : Stmt} (h : IsStmt ts s) :
    HeadNe .rbrace ts ∧ HeadNe (.ofKeyword .kwReturn) ts := by
  cases h with
  | block | print => exact ⟨⟨_, _, rfl, nofun⟩, ⟨_, _, rfl, nofun⟩⟩
  | ifElse | loop => exact ⟨⟨_, _, rfl, nofun⟩, ⟨_, _, rfl, by decide⟩⟩
  | assign node hname | assignElement node hname =>
      exact ⟨⟨_, _, rfl, nofun⟩, ⟨_, _, rfl, Token.word_ne_ofKeyword hname _⟩⟩

namespace Parser

variable {n : Nat} {c : Cursor} {ts tl : List Token}

theorem condition_yields {e : Expr} (h : IsExpr .conjunction ts e) (hn : ts.length ≤ n)
    (hc : c.tokens = .lparen :: (ts ++ .rparen :: tl)) :
    (condition (exprWithin n)).Yields c (fun e' => e'.mapNodes Node.blank = e.mapNodes Node.blank) tl := by
  refine .require hc fun c₁ hc₁ => ?_
  refine (exprWithin_yields h rfl hn hc₁).bind fun e' c₂ he' hc₂ => ?_
  exact .require hc₂ fun c₃ hc₃ => .pure he' hc₃

theorem stmtWithin_reads {s : Stmt} (h : IsStmt ts s) :
    ∀ n, ts.length ≤ n → (stmtWithin n).Reads (Stmt.mapNodes Node.blank) ts s := by
  induction h using IsStmt.induct with
  | @block node ts body h ih =>
      intro n hn c tl hc
      simp only [List.length_append, List.length_cons, List.length_nil] at hn
      simp only [List.append_assoc, List.cons_append, List.nil_append] at hc
      obtain ⟨n, rfl⟩ : ∃ m, n = m + 1 := Nat.exists_eq_add_one.mpr (by omega)
      have hbody : Many (fun us s => (stmtWithin n).Reads (Stmt.mapNodes Node.blank) us s ∧ HeadNe .rbrace us)
          ts body := by
        refine ih.imp_of_length fun us s hle hs => ?_
        obtain ⟨hs, ihs⟩ := hs
        exact ⟨ihs n (by omega), hs.headNe.1⟩
      have hlen := hbody.length_le fun us s hs => hs.2.ne_nil
      refine .here (.peek? hc (.advance hc fun c₁ hc₁ => ?_))
      refine (manyUntil_yields hbody (by omega) hc₁).bind fun body' c₂ hbody' hc₂ => ?_
      refine .require hc₂ fun c₃ hc₃ => .mark hc₃ fun node' c₄ hc₄ => .pure ?_ hc₄
      rw [Stmt.mapNodes, Stmt.mapNodes, Stmt.mapNodesAll_eq, Stmt.mapNodesAll_eq, hbody']
      rfl
  | ifElse node hcond ht he iht ihe =>
      intro n hn c tl hc
      simp only [List.length_append, List.length_cons] at hn
      simp only [List.append_assoc, List.cons_append] at hc
      obtain ⟨n, rfl⟩ : ∃ m, n = m + 1 := Nat.exists_eq_add_one.mpr (by omega)
      refine .here (.peek? hc (.advance hc fun c₁ hc₁ => ?_))
      refine (condition_yields hcond (by omega) hc₁).bind fun cond' c₂ hcond' hc₂ => ?_
      refine (iht n (by omega) hc₂).bind fun then' c₃ hthen' hc₃ => ?_
      refine .require hc₃ fun c₄ hc₄ => ?_
      refine (ihe n (by omega) hc₄).bind fun else' c₅ helse' hc₅ => ?_
      refine .mark hc₅ fun node' c₆ hc₆ => .pure ?_ hc₆
      rw [Stmt.mapNodes, Stmt.mapNodes, hcond', hthen', helse']
      rfl
  | loop node hcond hb ihb =>
      intro n hn c tl hc
      simp only [List.length_append, List.length_cons] at hn
      simp only [List.append_assoc, List.cons_append] at hc
      obtain ⟨n, rfl⟩ : ∃ m, n = m + 1 := Nat.exists_eq_add_one.mpr (by omega)
      refine .here (.peek? hc (.advance hc fun c₁ hc₁ => ?_))
      refine (condition_yields hcond (by omega) hc₁).bind fun cond' c₂ hcond' hc₂ => ?_
      refine (ihb n (by omega) hc₂).bind fun body' c₃ hbody' hc₃ => ?_
      refine .mark hc₃ fun node' c₄ hc₄ => .pure ?_ hc₄
      rw [Stmt.mapNodes, Stmt.mapNodes, hcond', hbody']
      rfl
  | print node h =>
      intro n hn c tl hc
      simp only [List.length_append, List.length_cons] at hn
      simp only [List.append_assoc, List.cons_append, List.nil_append] at hc
      obtain ⟨n, rfl⟩ : ∃ m, n = m + 1 := Nat.exists_eq_add_one.mpr (by omega)
      refine .here (.peek? hc (.advance hc fun c₁ hc₁ => ?_))
      refine (condition_yields h (by omega) hc₁).bind fun arg' c₂ harg' hc₂ => ?_
      refine .require hc₂ fun c₃ hc₃ => .mark hc₃ fun node' c₄ hc₄ => .pure ?_ hc₄
      rw [Stmt.mapNodes, Stmt.mapNodes, harg']
      rfl
  | assign node hname hv =>
      intro n hn c tl hc
      simp only [List.length_append, List.length_cons] at hn
      simp only [List.append_assoc, List.cons_append, List.nil_append] at hc
      obtain ⟨n, rfl⟩ : ∃ m, n = m + 1 := Nat.exists_eq_add_one.mpr (by omega)
      refine .here (.peek? hc ?_)
      dsimp only
      rw [wordStmt, isName_iff.mp hname]
      refine .identifier hc hname fun c₁ hc₁ => .decline (by simp [hc₁]) (.require hc₁ fun c₂ hc₂ => ?_)
      refine (exprWithin_yields hv rfl (by omega) hc₂).bind fun value' c₃ hvalue' hc₃ => ?_
      refine .require hc₃ fun c₄ hc₄ => .mark hc₄ fun node' c₅ hc₅ => .pure ?_ hc₅
      rw [Stmt.mapNodes, Stmt.mapNodes, hvalue']
      rfl
  | assignElement node hname hi hv =>
      intro n hn c tl hc
      simp only [List.length_append, List.length_cons] at hn
      simp only [List.append_assoc, List.cons_append, List.nil_append] at hc
      obtain ⟨n, rfl⟩ : ∃ m, n = m + 1 := Nat.exists_eq_add_one.mpr (by omega)
      refine .here (.peek? hc ?_)
      dsimp only
      rw [wordStmt, isName_iff.mp hname]
      refine .identifier hc hname fun c₁ hc₁ => .accept hc₁ fun c₂ hc₂ => ?_
      refine (exprWithin_yields hi rfl (by omega) hc₂).bind fun index' c₃ hindex' hc₃ => ?_
      refine .require hc₃ fun c₄ hc₄ => .require hc₄ fun c₅ hc₅ => ?_
      refine (exprWithin_yields hv rfl (by omega) hc₅).bind fun value' c₆ hvalue' hc₆ => ?_
      refine .require hc₆ fun c₇ hc₇ => .mark hc₇ fun node' c₈ hc₈ => .pure ?_ hc₈
      rw [Stmt.mapNodes, Stmt.mapNodes, hindex', hvalue']
      rfl

end Parser

/-- A type starts with a word, and apart from the types of the language it is not reserved. -/
theorem IsType.head {ts : List Token} {ty : Ty} (h : IsType ts ty) :
    ∃ text us, ts = .word text :: us ∧
      ∀ k : Keyword, k ≠ .kwInt → k ≠ .kwBoolean → Token.word text ≠ .ofKeyword k := by
  cases h with
  | int | intArray => exact ⟨_, _, rfl, fun k hint _ => by cases k <;> simp_all [Token.ofKeyword, Keyword.spelling]⟩
  | boolean => exact ⟨_, _, rfl, fun k _ hbool => by cases k <;> simp_all [Token.ofKeyword, Keyword.spelling]⟩
  | object hname => exact ⟨_, _, rfl, fun k _ _ => Token.word_ne_ofKeyword hname k⟩

namespace Cursor

variable {c : Cursor} {t : Token} {ts tl : List Token}

theorem identifierAt_eq (c : Cursor) (k : Nat) : c.identifierAt k = c.tokens[k]?.any Token.isIdentifier := by
  rw [identifierAt, token?_eq]

theorem typeWidth_of_isType {ty : Ty} (h : IsType ts ty) (hc : c.tokens = ts ++ tl)
    (htl : ty = .int → tl.head? ≠ some .lbracket) : c.typeWidth = ts.length := by
  cases h with
  | int =>
      have hnext : c.token? 1 ≠ some .lbracket := by
        rw [token?_eq, hc, List.singleton_append, List.getElem?_cons_succ, ← List.head?_eq_getElem?]
        exact htl rfl
      rw [typeWidth, if_pos (sees_iff.mpr (peek?_of_tokens hc)), if_neg hnext]
      rfl
  | intArray =>
      have hnext : c.token? 1 = some .lbracket := by
        rw [token?_eq, hc]
        rfl
      rw [typeWidth, if_pos (sees_iff.mpr (peek?_of_tokens hc)), if_pos hnext]
      rfl
  | boolean =>
      have hint : ¬ c.sees (.ofKeyword .kwInt) = true := by
        rw [sees_iff, peek?_of_tokens hc]
        decide
      rw [typeWidth, if_neg hint, if_pos (sees_iff.mpr (peek?_of_tokens hc))]
      rfl
  | object hname =>
      have hreserved : ∀ k, ¬ c.sees (.ofKeyword k) = true := by
        intro k
        rw [sees_iff, peek?_of_tokens hc, Option.some.injEq]
        exact Token.word_ne_ofKeyword hname k
      have hid : c.identifierAt 0 = true := by
        rw [identifierAt_eq, hc]
        exact isIdentifier_word.mpr hname
      rw [typeWidth, if_neg (hreserved _), if_neg (hreserved _), if_pos hid]
      rfl

theorem startsVarDecl_of_isType {ty : Ty} {name : String} (h : IsType ts ty) (hname : IsName name)
    (hc : c.tokens = ts ++ .word name :: tl) : c.startsVarDecl = true := by
  have hwidth : c.typeWidth = ts.length := typeWidth_of_isType h hc (by simp)
  have hpos : 0 < ts.length := by
    obtain ⟨text, us, rfl, -⟩ := h.head
    exact Nat.succ_pos _
  have hid : c.identifierAt ts.length = true := by
    rw [identifierAt_eq, hc, List.getElem?_append_right (Nat.le_refl _), Nat.sub_self]
    exact isIdentifier_word.mpr hname
  rw [startsVarDecl, hwidth, hid, Bool.and_true, decide_eq_true hpos]

/-- What a type and a name are followed by tells whether they are a field. -/
theorem startsField_iff_of_isType {ty : Ty} {name : String} (h : IsType ts ty) (hname : IsName name)
    (hc : c.tokens = ts ++ .word name :: t :: tl) : c.startsField = true ↔ t = .semicolon := by
  have hwidth : c.typeWidth = ts.length := typeWidth_of_isType h hc (by simp)
  have hnext : c.token? (ts.length + 1) = some t := by
    rw [token?_eq, hc, List.getElem?_append_right (Nat.le_add_right _ 1), Nat.add_sub_cancel_left]
    rfl
  rw [startsField, startsVarDecl_of_isType h hname hc, hwidth, hnext, Bool.true_and, decide_eq_true_eq,
    Option.some.injEq]

theorem typeWidth_eq_zero (hc : c.tokens = t :: tl) (hid : t.isIdentifier = false)
    (hint : t ≠ .ofKeyword .kwInt) (hbool : t ≠ .ofKeyword .kwBoolean) : c.typeWidth = 0 := by
  have hsees : ∀ t', t ≠ t' → ¬ c.sees t' = true := by
    intro t' hne
    rw [sees_iff, peek?_of_tokens hc, Option.some.injEq]
    exact hne
  have hid' : ¬ c.identifierAt 0 = true := by
    rw [identifierAt_eq, hc]
    simp [hid]
  rw [typeWidth, if_neg (hsees _ hint), if_neg (hsees _ hbool), if_neg hid']

theorem not_startsVarDecl_of_head (hc : c.tokens = t :: tl) (hid : t.isIdentifier = false)
    (hint : t ≠ .ofKeyword .kwInt) (hbool : t ≠ .ofKeyword .kwBoolean) : c.startsVarDecl = false := by
  rw [startsVarDecl, typeWidth_eq_zero hc hid hint hbool]
  rfl

theorem not_startsVarDecl_of_isStmt {s : Stmt} (h : IsStmt ts s) (hc : c.tokens = ts ++ tl) :
    c.startsVarDecl = false := by
  have hname : ∀ {name t us}, IsName name → t.isIdentifier = false → c.tokens = .word name :: t :: us →
      c.startsVarDecl = false := by
    intro name t us hname hid hc
    have hnext : c.identifierAt 1 = false := by
      rw [identifierAt_eq, hc]
      exact hid
    rw [startsVarDecl, typeWidth_of_isType (.object hname) hc nofun]
    exact hnext
  cases h with
  | block | print | ifElse | loop => exact not_startsVarDecl_of_head hc rfl (by decide) (by decide)
  | assign node hn | assignElement node hn => exact hname hn rfl hc

end Cursor

section
variable {c : Cursor} {ts tl : List Token}

theorem IsType.headNe {ty : Ty} (h : IsType ts ty) (stop : Token) (hstop : ∀ text, Token.word text ≠ stop) :
    HeadNe stop ts := by
  obtain ⟨text, us, rfl, -⟩ := h.head
  exact ⟨_, _, rfl, hstop text⟩

theorem IsFormal.headNe {v : VarDecl} (h : IsFormal ts v) : HeadNe .rparen ts := by
  obtain ⟨hty, -⟩ := h
  exact (hty.headNe .rparen fun _ => nofun).append _

theorem IsVarDecl.headNe {v : VarDecl} (h : IsVarDecl ts v) : HeadNe .rbrace ts := by
  obtain ⟨hty, -⟩ := h
  exact (hty.headNe .rbrace fun _ => nofun).append _

theorem IsVarDecl.startsVarDecl {v : VarDecl} (h : IsVarDecl ts v) (hc : c.tokens = ts ++ tl) :
    c.startsVarDecl = true := by
  obtain ⟨hty, hname⟩ := h
  rw [List.append_assoc] at hc
  exact Cursor.startsVarDecl_of_isType hty hname hc

theorem IsVarDecl.startsField {v : VarDecl} (h : IsVarDecl ts v) (hc : c.tokens = ts ++ tl) :
    c.startsField = true := by
  obtain ⟨hty, hname⟩ := h
  rw [List.append_assoc] at hc
  exact (Cursor.startsField_iff_of_isType hty hname hc).mpr rfl

theorem IsMethod.headNe {m : MethodDecl} (h : IsMethod ts m) : HeadNe .rbrace ts := by
  obtain ⟨rfl | rfl, hty, -⟩ := h
  · exact (hty.headNe .rbrace fun _ => nofun).append _
  · exact ⟨_, _, rfl, nofun⟩

theorem IsClass.headNe {d : ClassDecl} (h : IsClass ts d) : HeadNe .rbrace ts := by
  obtain ⟨-, -, -, -⟩ := h
  exact ⟨_, _, rfl, nofun⟩

theorem IsMethod.not_startsField {m : MethodDecl} (h : IsMethod ts m) (hc : c.tokens = ts ++ tl) :
    c.startsField = false := by
  obtain ⟨rfl | rfl, hty, hname, -⟩ := h
  · simp only [List.nil_append, List.append_assoc, List.cons_append] at hc
    rw [← Bool.not_eq_true, Cursor.startsField_iff_of_isType hty hname hc]
    nofun
  · rw [Cursor.startsField, Cursor.not_startsVarDecl_of_head hc rfl (by decide) (by decide)]
    rfl

end

namespace Parser

variable {n : Nat} {c : Cursor} {ts tl : List Token}

theorem type_yields {ty : Ty} (h : IsType ts ty) (hc : c.tokens = ts ++ tl)
    (htl : tl.head? ≠ some .lbracket) : type.Yields c (fun ty' => ty' = ty) tl := by
  cases h with
  | int =>
      refine .accept hc fun c₁ hc₁ => .decline ?_ (.pure rfl hc₁)
      rw [hc₁]
      exact htl
  | intArray =>
      refine .accept hc fun c₁ hc₁ => .accept hc₁ fun c₂ hc₂ => ?_
      exact .require hc₂ fun c₃ hc₃ => .pure rfl hc₃
  | boolean =>
      refine .decline ?_ (.accept hc fun c₁ hc₁ => .pure rfl hc₁)
      rw [hc, List.singleton_append, List.head?_cons]
      decide
  | object hname =>
      have hreserved : ∀ k, c.tokens.head? ≠ some (.ofKeyword k) := by
        intro k heq
        rw [hc] at heq
        exact Token.word_ne_ofKeyword hname k (Option.some.inj heq)
      have hid : c.identifierAt 0 = true := by
        rw [Cursor.identifierAt_eq, hc]
        exact isIdentifier_word.mpr hname
      refine .decline (hreserved _) (.decline (hreserved _) (.get ?_))
      rw [if_pos hid]
      exact .identifier hc hname fun c₁ hc₁ => .pure rfl hc₁

theorem formal_reads {v : VarDecl} (h : IsFormal ts v) :
    ReadsArgument formal (VarDecl.mapNodes Node.blank) ts v := by
  intro c t tl hc _
  obtain ⟨hty, hname⟩ := h
  rw [List.append_assoc] at hc
  refine .here ((type_yields hty hc (by simp)).bind fun ty c₁ hty' hc₁ => ?_)
  refine .identifier hc₁ hname fun c₂ hc₂ => .mark hc₂ fun node c₃ hc₃ => .pure ?_ hc₃
  rw [hty']
  rfl

theorem varDecl_reads {v : VarDecl} (h : IsVarDecl ts v) :
    varDecl.Reads (VarDecl.mapNodes Node.blank) ts v := by
  intro c tl hc
  obtain ⟨hty, hname⟩ := h
  rw [List.append_assoc] at hc
  refine .here ((type_yields hty hc (by simp)).bind fun ty c₁ hty' hc₁ => ?_)
  refine .identifier hc₁ hname fun c₂ hc₂ => .require hc₂ fun c₃ hc₃ => ?_
  refine .mark hc₃ fun node c₄ hc₄ => .pure ?_ hc₄
  rw [hty']
  rfl

theorem accept_access_yields {access : List Token} {ty : Ty}
    (haccess : access = [] ∨ access = [.ofKeyword .kwPublic]) (hty : IsType ts ty)
    (hc : c.tokens = access ++ (ts ++ tl)) :
    (accept (.ofKeyword .kwPublic)).Yields c (fun _ => True) (ts ++ tl) := by
  rcases haccess with rfl | rfl
  · refine ⟨false, c, accept_of_not_sees ?_, trivial, hc⟩
    obtain ⟨text, us, rfl, hreserved⟩ := hty.head
    rw [Cursor.peek?_of_tokens hc]
    exact fun heq => hreserved .kwPublic nofun nofun (Option.some.inj heq)
  · exact ⟨true, c.advance, accept_of_sees (Cursor.peek?_of_tokens hc), trivial, Cursor.tokens_advance hc⟩

/-- The locals of a method end where its statements or the result begin. -/
theorem locals_end {bs : List Token} {body : List Stmt} (h : Many IsStmt bs body)
    (hc : c.tokens = bs ++ .ofKeyword .kwReturn :: tl) : c.startsVarDecl = false := by
  cases h with
  | nil => exact Cursor.not_startsVarDecl_of_head hc rfl (by decide) (by decide)
  | cons hs _ =>
      rw [List.append_assoc] at hc
      exact Cursor.not_startsVarDecl_of_isStmt hs hc

theorem methodDecl_reads {m : MethodDecl} (h : IsMethod ts m) (hn : ts.length ≤ n) :
    (methodDecl n).Reads (MethodDecl.mapNodes Node.blank) ts m := by
  intro c tl hc
  obtain ⟨haccess, hty, hname, hfs, hvs, hbs, hrs⟩ := h
  rename_i access ts fs vs bs rs
  simp only [List.length_append, List.length_cons, List.length_nil] at hn
  simp only [List.append_assoc, List.cons_append, List.nil_append] at hc
  have hformals : Separated (fun us v => ReadsArgument formal (VarDecl.mapNodes Node.blank) us v ∧
      HeadNe .rparen us) fs m.formals :=
    hfs.imp_of_length fun us v _ h => ⟨formal_reads h, h.headNe⟩
  have hlocals : Many (fun us v => varDecl.Reads (VarDecl.mapNodes Node.blank) us v ∧
      ∀ (c : Cursor) tl, c.tokens = us ++ tl → c.startsVarDecl = true) vs m.locals :=
    hvs.imp_of_length fun us v _ h => ⟨varDecl_reads h, fun c tl => h.startsVarDecl⟩
  have hbody : Many (fun us s => (stmtWithin n).Reads (Stmt.mapNodes Node.blank) us s ∧
      HeadNe (.ofKeyword .kwReturn) us) bs m.body :=
    hbs.imp_of_length fun us s hle h => ⟨stmtWithin_reads h n (by omega), h.headNe.2⟩
  have hlocalsLen := hvs.length_le fun us v h => h.headNe.ne_nil
  have hbodyLen := hbody.length_le fun us s h => h.2.ne_nil
  refine .here (Yields.bind (accept_access_yields haccess hty hc) fun _ c₁ _ hc₁ => ?_)
  refine (type_yields hty hc₁ (by simp)).bind fun ty c₂ hty' hc₂ => ?_
  refine .identifier hc₂ hname fun c₃ hc₃ => ?_
  refine (parenthesised_yields hformals (by omega) hc₃).bind fun formals' c₄ hformals' hc₄ => ?_
  refine .require hc₄ fun c₅ hc₅ => ?_
  refine (many_yields hlocals (fun c hc => locals_end hbs hc) (by omega) hc₅).bind
    fun locals' c₆ hlocals' hc₆ => ?_
  refine (manyUntil_yields hbody (by omega) hc₆).bind fun body' c₇ hbody' hc₇ => ?_
  refine .require hc₇ fun c₈ hc₈ => ?_
  refine (exprWithin_yields hrs rfl (by omega) hc₈).bind fun result' c₉ hresult' hc₉ => ?_
  refine .require hc₉ fun c₁₀ hc₁₀ => .require hc₁₀ fun c₁₁ hc₁₁ => ?_
  refine .mark hc₁₁ fun node c₁₂ hc₁₂ => .pure ?_ hc₁₂
  simp only [MethodDecl.mapNodes, Stmt.mapNodesAll_eq, hty', hformals', hlocals', hbody', hresult', Node.blank]

theorem member_reads {m : MethodDecl} (h : IsMethod ts m) (hn : ts.length ≤ n) :
    (member n).Reads (MethodDecl.mapNodes Node.blank) ts m := by
  intro c tl hc
  have hfield : ¬ c.startsField = true := by
    rw [h.not_startsField hc]
    exact Bool.false_ne_true
  refine .get ?_
  rw [if_neg hfield]
  exact methodDecl_reads h hn hc

theorem superclass_yields {superName : Option String} (h : IsExtension ts superName)
    (hc : c.tokens = ts ++ .lbrace :: tl) :
    superclass.Yields c (fun name => name = superName) (.lbrace :: tl) := by
  cases h with
  | none => exact .decline (by simp [hc, Token.ofKeyword]) (.pure rfl hc)
  | some hname => exact .accept hc fun c₁ hc₁ => .identifier hc₁ hname fun c₂ hc₂ => .pure rfl hc₂

/-- The fields of a class end where its methods or the class end. -/
theorem fields_end {ms : List Token} {methods : List MethodDecl} (h : Many IsMethod ms methods)
    (hc : c.tokens = ms ++ .rbrace :: tl) : c.startsField = false := by
  cases h with
  | nil =>
      rw [Cursor.startsField, Cursor.not_startsVarDecl_of_head hc rfl (by decide) (by decide)]
      rfl
  | cons hm _ =>
      rw [List.append_assoc] at hc
      exact hm.not_startsField hc

theorem classDecl_reads {d : ClassDecl} (h : IsClass ts d) (hn : ts.length ≤ n) :
    (classDecl n).Reads (ClassDecl.mapNodes Node.blank) ts d := by
  intro c tl hc
  obtain ⟨hname, hsuper, hfs, hms⟩ := h
  rename_i es fs ms
  simp only [List.length_append, List.length_cons, List.length_nil] at hn
  simp only [List.append_assoc, List.cons_append, List.nil_append] at hc
  have hfields : Many (fun us v => varDecl.Reads (VarDecl.mapNodes Node.blank) us v ∧
      ∀ (c : Cursor) tl, c.tokens = us ++ tl → c.startsField = true) fs d.fields :=
    hfs.imp_of_length fun us v _ h => ⟨varDecl_reads h, fun c tl => h.startsField⟩
  have hmethods : Many (fun us m => (member n).Reads (MethodDecl.mapNodes Node.blank) us m ∧
      HeadNe .rbrace us) ms d.methods :=
    hms.imp_of_length fun us m hle h => ⟨member_reads h (by omega), h.headNe⟩
  have hfieldsLen := hfs.length_le fun us v h => h.headNe.ne_nil
  have hmethodsLen := hms.length_le fun us m h => h.headNe.ne_nil
  refine .here (.require hc fun c₁ hc₁ => .identifier hc₁ hname fun c₂ hc₂ => ?_)
  refine (superclass_yields hsuper hc₂).bind fun superName c₃ hsuper' hc₃ => ?_
  refine .require hc₃ fun c₄ hc₄ => ?_
  refine (many_yields hfields (fun c hc => fields_end hms hc) (by omega) hc₄).bind
    fun fields' c₅ hfields' hc₅ => ?_
  refine (manyUntil_yields hmethods (by omega) hc₅).bind fun methods' c₆ hmethods' hc₆ => ?_
  refine .require hc₆ fun c₇ hc₇ => .mark hc₇ fun node c₈ hc₈ => .pure ?_ hc₈
  simp only [ClassDecl.mapNodes, hsuper', hfields', hmethods', Node.blank]

theorem mainClass_reads {m : MainClass} (h : IsMain ts m) (hn : ts.length ≤ n) :
    (mainClass n).Reads (MainClass.mapNodes Node.blank) ts m := by
  intro c tl hc
  obtain ⟨hname, hargs, hbody⟩ := h
  simp only [List.length_append, List.length_cons] at hn
  simp only [List.append_assoc, List.cons_append, List.nil_append] at hc
  refine .here (.require hc fun c₁ hc₁ => .identifier hc₁ hname fun c₂ hc₂ => ?_)
  refine .require hc₂ fun c₃ hc₃ => .require hc₃ fun c₄ hc₄ => .require hc₄ fun c₅ hc₅ => ?_
  refine .require hc₅ fun c₆ hc₆ => .require hc₆ fun c₇ hc₇ => .require hc₇ fun c₈ hc₈ => ?_
  refine .require hc₈ fun c₉ hc₉ => .require hc₉ fun c₁₀ hc₁₀ => .require hc₁₀ fun c₁₁ hc₁₁ => ?_
  refine .identifier hc₁₁ hargs fun c₁₂ hc₁₂ => .require hc₁₂ fun c₁₃ hc₁₃ => .require hc₁₃ fun c₁₄ hc₁₄ => ?_
  refine (stmtWithin_reads hbody n (by omega) hc₁₄).bind fun body' c₁₅ hbody' hc₁₅ => ?_
  refine .require hc₁₅ fun c₁₆ hc₁₆ => .require hc₁₆ fun c₁₇ hc₁₇ => ?_
  refine .mark hc₁₇ fun node c₁₈ hc₁₈ => .pure ?_ hc₁₈
  simp only [MainClass.mapNodes, hbody', Node.blank]

/-- A program is read off its tokens. -/
theorem program_yields {p : Program} (h : IsProgram ts p) (hc : c.tokens = ts) :
    program.Yields c (fun q => q.mapNodes Node.blank = p.mapNodes Node.blank) [] := by
  obtain ⟨hmain, hclasses⟩ := h
  rename_i ts us
  have hlen : c.rest.length = ts.length + us.length := by
    rw [← List.length_append, ← hc, Cursor.tokens, List.length_map]
  have hlist : Many (fun us d => (classDecl c.rest.length).Reads (ClassDecl.mapNodes Node.blank) us d ∧
      ∀ (c : Cursor) tl, c.tokens = us ++ tl → (!c.atEnd) = true) us p.classes := by
    refine hclasses.imp_of_length fun us d hle h => ⟨classDecl_reads h (by omega), fun c tl hc => ?_⟩
    rw [Bool.not_eq_true', ← Bool.not_eq_true, Cursor.atEnd_iff, hc]
    exact (h.headNe.append tl).ne_nil
  have hclassesLen := hclasses.length_le fun us d h => h.headNe.ne_nil
  refine .get ((mainClass_reads hmain (by omega) hc).bind fun main' c₁ hmain' hc₁ => ?_)
  rw [← List.append_nil us] at hc₁
  refine (many_yields hlist (fun c hc => ?_) (by omega) hc₁).bind fun classes' c₂ hclasses' hc₂ => ?_
  · rw [Bool.not_eq_false', Cursor.atEnd_iff]
    exact hc
  refine .pure ?_ hc₂
  simp only [Program.mapNodes, hmain', hclasses']

end Parser

end Demitasse
