import Demitasse.Proofs.IrTokens
import Demitasse.Proofs.Legibility

/-! Reading what was written. The parts of an instruction stand in the text where the reader looks for them, so every
instruction is read back from its line, every function from its lines, and the text of a program's module says which
functions there are and what the global names stand for. -/

namespace Demitasse

open IrReader

theorem ofDigitChars_toString (n : Nat) : Nat.ofDigitChars 10 (toString n).toList 0 = n := by
  rw [Nat.toString_eq_ofList_toDigits, String.toList_ofList]
  exact Nat.ofDigitChars_toDigits (by decide) (by decide)

theorem readNumber_toString (n : Nat) : readNumber (toString n) = some n := by
  have hdigits : (toString n).toList.all Char.isDigit = true :=
    List.all_eq_true.mpr fun c hc => isDigit_of_mem_toString hc
  rw [readNumber, if_pos ⟨toString_ne_empty n, hdigits⟩, ofDigitChars_toString]

namespace Reg

variable {r : Reg}

theorem Legible.read (h : r.Legible) : readReg r.text = some r := by
  unfold readReg
  cases r with
  | temp n =>
      rw [toList_text_temp]
      simp only [List.drop_one, List.tail_cons, ofDigitChars_toString, if_true]
  | named name =>
      rw [toList_text_named]
      simp only [if_neg (h.2 _), String.ofList_toList]

end Reg

namespace Label

/-- There is no dot in a number, so the label can be read off its text. -/
theorem read (l : Label) : readLabel l.text = some l := by
  have hpieces : l.text.toList.splitOn '.' = l.stem.toList.splitOn '.' ++ [(toString l.index).toList] := by
    rw [toList_text, List.splitOn_append_cons_self, List.splitOn_eq_singleton (dot_not_mem_toString _)]
  have hlength : 2 ≤ (l.stem.toList.splitOn '.' ++ [(toString l.index).toList]).length := by
    have hpos := List.length_pos_of_ne_nil (List.splitOn_ne_nil '.' l.stem.toList)
    rw [List.length_append, List.length_singleton]
    omega
  unfold readLabel
  simp only [hpieces, List.getLastD_concat, List.dropLast_concat, ofDigitChars_toString]
  rw [if_pos ⟨hlength, trivial⟩, List.intercalate_splitOn, String.ofList_toList]

theorem read_target (l : Label) : readTarget ("%" ++ l.text) = some l := by
  unfold readTarget
  rw [String.toList_append]
  show readLabel (String.ofList l.text.toList) = some l
  rw [String.ofList_toList, read]

end Label

namespace Operand

variable {o : Operand}

theorem Clean.read (h : o.Clean) : readOperand o.text = some o := by
  unfold readOperand
  cases o with
  | reg r =>
      have hread := Reg.Legible.read h
      have hmark : ∃ name, r.text.toList = '%' :: name := by
        cases r with
        | temp n => exact ⟨_, Reg.toList_text_temp n⟩
        | named name => exact ⟨_, Reg.toList_text_named name⟩
      obtain ⟨name, hname⟩ := hmark
      rw [text, hname]
      show (readReg r.text).map reg = some (reg r)
      rw [hread, Option.map_some]
  | const n =>
      rw [text]
      split
      · next heq => exact absurd (isDigit_of_mem_toString (heq ▸ List.mem_cons_self)) (by decide)
      · next heq => exact absurd (isDigit_of_mem_toString (heq ▸ List.mem_cons_self)) (by decide)
      · rw [readNumber_toString, Option.map_some]
  | global name =>
      obtain ⟨word, hname, _⟩ := h
      rw [text, hname]
      rfl

end Operand

namespace IrTy

/-- A type is read off in front of anything, with the stars that follow it. -/
theorem readType_tokens (ty : IrTy) (rest : List IrToken) :
    readType (ty.tokens ++ rest) = some (readStars ty rest) := by
  induction ty generalizing rest with
  | ptr elem ih =>
      rw [tokens, List.append_assoc, ih]
      rfl
  | array len elem ih =>
      rw [tokens, List.cons_append, List.cons_append, List.cons_append, readType, List.append_assoc, ih,
        readNumber_toString]
      rfl
  | _ => rfl

end IrTy

/-- Types have no marks but stars and brackets. -/
theorem IrTy.mark_not_mem_tokens {c : Char} (h : c ∉ ['*', '[', ']']) (ty : IrTy) : .mark c ∉ ty.tokens := by
  have hmark : ∀ d ∈ ['*', '[', ']'], IrToken.mark c ≠ .mark d := by
    rintro d hd heq
    exact h (IrToken.mark.inj heq ▸ hd)
  induction ty with
  | ptr elem ih => simp [tokens, ih, hmark]
  | array len elem ih => simp [tokens, ih, hmark]
  | _ => simp [tokens]

theorem mark_not_mem_typed {c : Char} (h : c ∉ ['*', '[', ']']) (ty : IrTy) (word : String) :
    IrToken.mark c ∉ ty.tokens ++ [.word word] := by
  rw [List.mem_append, not_or]
  exact ⟨ty.mark_not_mem_tokens h, by simp⟩

/-- Nor do types in a row, whatever stands behind them. -/
theorem mark_not_mem_types {c : Char} (h : c ∉ ['*', '[', ']']) (tys : List IrTy) {last : List (List IrToken)}
    (hlast : ∀ item ∈ last, IrToken.mark c ∉ item) : ∀ item ∈ tys.map IrTy.tokens ++ last, IrToken.mark c ∉ item :=
  List.forall_mem_append.mpr ⟨List.forall_mem_map.mpr fun ty _ => ty.mark_not_mem_tokens h, hlast⟩

theorem mark_not_mem_commaTokens {c : Char} (hc : c ≠ ',') {items : List (List IrToken)}
    (h : ∀ item ∈ items, .mark c ∉ item) : .mark c ∉ commaTokens items := by
  induction items with
  | nil => simp [commaTokens]
  | cons item items ih =>
      obtain ⟨hitem, hitems⟩ := List.forall_mem_cons.mp h
      cases items with
      | nil => rwa [commaTokens_singleton]
      | cons item' items =>
          rw [commaTokens_cons_cons, List.mem_append, List.mem_cons, not_or, not_or]
          exact ⟨hitem, fun heq => hc (IrToken.mark.inj heq), ih hitems⟩

theorem commaTokens_ne_nil {items : List (List IrToken)} (hne : items ≠ []) (h : ∀ item ∈ items, item ≠ []) :
    commaTokens items ≠ [] := by
  cases items with
  | nil => exact absurd rfl hne
  | cons item items =>
      have hitem := h item List.mem_cons_self
      cases items with
      | nil => rwa [commaTokens_singleton]
      | cons item' items =>
          rw [commaTokens_cons_cons]
          exact List.append_ne_nil_of_left_ne_nil hitem _

theorem mapM_map_eq_some {α β : Type} {f : β → Option α} {g : α → β} {l : List α} (h : ∀ a ∈ l, f (g a) = some a) :
    (l.map g).mapM f = some l := by
  induction l with
  | nil => rfl
  | cons a l ih =>
      obtain ⟨ha, hl⟩ := List.forall_mem_cons.mp h
      rw [List.map_cons, List.mapM_cons, ha, ih hl]
      rfl

theorem readList_commaTokens {α : Type} {readItem : List IrToken → Option α} {tokens : α → List IrToken} {l : List α}
    (hread : ∀ a ∈ l, readItem (tokens a) = some a) (hcomma : ∀ a ∈ l, .mark ',' ∉ tokens a)
    (hne : ∀ a ∈ l, tokens a ≠ []) : readList readItem (commaTokens (l.map tokens)) = some l := by
  unfold readList
  by_cases hl : l = []
  · subst hl
    rfl
  · have hitems : l.map tokens ≠ [] := mt List.map_eq_nil_iff.mp hl
    rw [if_neg (commaTokens_ne_nil hitems (List.forall_mem_map.mpr hne)), commaTokens,
      List.splitOn_intercalate _ (List.forall_mem_map.mpr hcomma) hitems]
    exact mapM_map_eq_some hread

theorem splitClosing_append {ts rest : List IrToken} (h : .mark ')' ∉ ts) :
    splitClosing (ts ++ .mark ')' :: rest) = some (ts, rest) := by
  have hts : ∀ t ∈ ts, decide (t ≠ .mark ')') = true := by
    intro t ht
    rw [decide_eq_true_eq]
    rintro rfl
    exact h ht
  unfold splitClosing
  rw [List.dropWhile_append_of_pos hts, List.takeWhile_append_of_pos hts]
  simp

theorem readOnlyType_tokens (ty : IrTy) : readOnlyType ty.tokens = some ty := by
  unfold readOnlyType
  rw [← List.append_nil ty.tokens, ty.readType_tokens]
  rfl

theorem readTyped_tokens (ty : IrTy) {o : Operand} (ho : o.Clean) :
    readTyped (ty.tokens ++ [.word o.text]) = some (ty, o) := by
  unfold readTyped
  rw [ty.readType_tokens]
  show (readOperand o.text).bind (fun o => some (ty, o)) = some (ty, o)
  rw [ho.read, Option.bind_some]

theorem readPair_tokens (ty : IrTy) {lhs rhs : Operand} (hlhs : lhs.Clean) (hrhs : rhs.Clean) :
    readPair (ty.tokens ++ [.word lhs.text, .mark ',', .word rhs.text]) = some (ty, lhs, rhs) := by
  unfold readPair
  rw [ty.readType_tokens]
  show ((readOperand lhs.text).bind fun lhs => (readOperand rhs.text).bind fun rhs => some (ty, lhs, rhs)) = _
  rw [hlhs.read, hrhs.read, Option.bind_some, Option.bind_some]

theorem IrTy.tokens_ne_nil (ty : IrTy) : ty.tokens ≠ [] := by
  cases ty <;> simp [tokens]

theorem readTypes_tokens (tys : List IrTy) : readList readOnlyType (commaTokens (tys.map IrTy.tokens)) = some tys :=
  readList_commaTokens (fun ty _ => readOnlyType_tokens ty) (fun ty _ => ty.mark_not_mem_tokens (by decide))
    fun ty _ => ty.tokens_ne_nil

theorem readVariadic_tokens (fixed : List IrTy) :
    readVariadic (commaTokens (fixed.map IrTy.tokens ++ [[.word "..."]])) = some fixed := by
  have hcomma : ∀ item ∈ fixed.map IrTy.tokens ++ [[IrToken.word "..."]], IrToken.mark ',' ∉ item :=
    mark_not_mem_types (by decide) fixed (by simp)
  unfold readVariadic commaTokens
  rw [List.splitOn_intercalate _ hcomma (List.append_ne_nil_of_right_ne_nil _ (List.cons_ne_nil _ _))]
  simp only [List.getLast?_concat, if_true, List.dropLast_concat]
  exact mapM_map_eq_some fun ty _ => readOnlyType_tokens ty

theorem readTyped_ptr_tokens (ty : IrTy) {o : Operand} (ho : o.Clean) :
    readTyped (ty.tokens ++ [.mark '*', .word o.text]) = some (.ptr ty, o) := by
  have hread := readTyped_tokens (.ptr ty) ho
  rwa [IrTy.tokens, List.append_assoc] at hread

theorem readIndices_tokens {indices : List Operand} (hne : indices ≠ []) (h : ∀ o ∈ indices, o.Clean) :
    readIndices (.mark ',' :: commaTokens (indices.map fun o => [.word "i32", .word o.text])) = some indices := by
  induction indices with
  | nil => exact absurd rfl hne
  | cons o indices ih =>
      obtain ⟨ho, hindices⟩ := List.forall_mem_cons.mp h
      cases indices with
      | nil =>
          rw [List.map_singleton, commaTokens_singleton, readIndices, ho.read]
          rfl
      | cons o' indices =>
          have hrest := ih (List.cons_ne_nil _ _) hindices
          rw [List.map_cons] at hrest
          rw [List.map_cons, List.map_cons, commaTokens_cons_cons, List.cons_append, List.cons_append,
            List.nil_append, readIndices, ho.read, hrest]
          rfl

theorem readIncoming_tokens {incoming : List (Operand × Label)} (hne : incoming ≠ [])
    (h : ∀ v ∈ incoming, v.1.Clean) :
    readIncoming (commaTokens (incoming.map fun v =>
      [.mark '[', .word v.1.text, .mark ',', .word ("%" ++ v.2.text), .mark ']'])) = some incoming := by
  induction incoming with
  | nil => exact absurd rfl hne
  | cons v incoming ih =>
      obtain ⟨hv, hincoming⟩ := List.forall_mem_cons.mp h
      cases incoming with
      | nil =>
          rw [List.map_singleton, commaTokens_singleton, readIncoming, hv.read, v.2.read_target]
          rfl
      | cons v' incoming =>
          have hrest := ih (List.cons_ne_nil _ _) hincoming
          rw [List.map_cons] at hrest
          rw [List.map_cons, List.map_cons, commaTokens_cons_cons]
          simp only [List.cons_append, List.nil_append]
          rw [readIncoming, hv.read, v.2.read_target]
          show (readIncoming _).bind _ = _
          rw [hrest]
          rfl

theorem exists_commaTokens_incoming {incoming : List (Operand × Label)} (hne : incoming ≠ []) :
    ∃ ts, commaTokens (incoming.map fun v =>
      [.mark '[', .word v.1.text, .mark ',', .word ("%" ++ v.2.text), .mark ']']) = .mark '[' :: ts := by
  cases incoming with
  | nil => exact absurd rfl hne
  | cons v incoming =>
      cases incoming with
      | nil => exact ⟨_, commaTokens_singleton _⟩
      | cons v' incoming => exact ⟨_, commaTokens_cons_cons _ _ _⟩

theorem readInstr_defining {r : Reg} (hr : r.Legible) (mnemonic : String) (ts : List IrToken) :
    readInstr (.word r.text :: .mark '=' :: .word mnemonic :: ts) = readDefining r mnemonic ts := by
  unfold readInstr
  simp only [hr.read]

theorem readCalleeTy_tokens (ty : CalleeTy) {callee : String} {rest : List IrToken} :
    ∃ ts, readType (ty.tokens ++ .word callee :: rest) = some (ty.ret, ts) ∧
      readCalleeTy ty.ret ts = some (ty, .word callee :: rest) := by
  cases ty with
  | returns ty => exact ⟨_, ty.readType_tokens _, rfl⟩
  | variadic ty fixed =>
      have hclosing : IrToken.mark ')' ∉ commaTokens (fixed.map IrTy.tokens ++ [[.word "..."]]) :=
        mark_not_mem_commaTokens (by decide) (mark_not_mem_types (by decide) fixed (by simp))
      rw [CalleeTy.tokens, List.append_assoc, ty.readType_tokens]
      refine ⟨_, rfl, ?_⟩
      show (splitClosing (_ ++ [.mark ')'] ++ _)).bind _ = _
      rw [List.append_assoc, List.singleton_append, splitClosing_append hclosing]
      show (readVariadic _).bind _ = _
      rw [readVariadic_tokens]
      rfl

theorem readCall_tokens {result : Option Reg} {ty : CalleeTy} {callee : Operand} {args : List (IrTy × Operand)}
    (hresult : ∀ r, result = some r → ty.ret ≠ .void) (hcallee : callee.Clean) (hargs : ∀ arg ∈ args, arg.2.Clean) :
    readCall result (ty.tokens ++ .word callee.text :: .mark '(' ::
      (commaTokens (args.map fun arg => arg.1.tokens ++ [.word arg.2.text]) ++ [.mark ')'])) =
      some (.call result ty callee args) := by
  have hclosing : IrToken.mark ')' ∉ commaTokens (args.map fun arg => arg.1.tokens ++ [.word arg.2.text]) :=
    mark_not_mem_commaTokens (by decide)
      (List.forall_mem_map.mpr fun arg _ => mark_not_mem_typed (by decide) arg.1 arg.2.text)
  have hitems : readList readTyped (commaTokens (args.map fun arg => arg.1.tokens ++ [.word arg.2.text])) = some args :=
    readList_commaTokens (fun arg harg => readTyped_tokens arg.1 (hargs arg harg))
      (fun arg _ => mark_not_mem_typed (by decide) arg.1 arg.2.text)
      fun arg _ => List.append_ne_nil_of_right_ne_nil _ (List.cons_ne_nil _ _)
  have hvoid : ¬ (result ≠ none ∧ ty.ret = .void) := by
    rintro ⟨hne, hret⟩
    obtain ⟨r, hr⟩ := Option.ne_none_iff_exists'.mp hne
    exact hresult r hr hret
  obtain ⟨ts, htype, hty⟩ := readCalleeTy_tokens ty
  unfold readCall
  rw [htype]
  show (readCalleeTy ty.ret ts).bind _ = _
  rw [hty]
  show (readOperand callee.text).bind _ = _
  rw [hcallee.read]
  show (splitClosing (_ ++ [.mark ')'])).bind _ = _
  rw [splitClosing_append hclosing]
  show (readList readTyped _).bind _ = _
  rw [hitems]
  exact if_neg hvoid

namespace Instr

theorem read_tokens {i : Instr} (h : i.Clean) : readInstr i.tokens = some i := by
  cases i with
  | arith result op ty lhs rhs =>
      obtain ⟨hresult, hlhs, hrhs⟩ := h
      have hread : readArith result op.mnemonic (ty.tokens ++ [.word lhs.text, .mark ',', .word rhs.text]) =
          some (arith result op ty lhs rhs) := by
        unfold readArith
        rw [readPair_tokens ty hlhs hrhs]
        cases op <;> rfl
      rw [tokens, readInstr_defining hresult, ← hread]
      cases op <;> rfl
  | compare result cmp ty lhs rhs =>
      obtain ⟨hresult, hlhs, hrhs⟩ := h
      rw [tokens, readInstr_defining hresult]
      show readCompare result (.word cmp.mnemonic :: (ty.tokens ++ _)) = _
      rw [readCompare, readPair_tokens ty hlhs hrhs]
      cases cmp <;> rfl
  | alloca result ty =>
      have hresult : result.Legible := h
      rw [tokens, readInstr_defining hresult]
      show (readOnlyType ty.tokens).map (alloca result) = _
      rw [readOnlyType_tokens, Option.map_some]
  | load result ty ptr =>
      obtain ⟨hresult, hptr⟩ := h
      rw [tokens, readInstr_defining hresult]
      show readLoad result _ = _
      unfold readLoad
      rw [ty.readType_tokens]
      show (readTyped (ty.tokens ++ [.mark '*', .word ptr.text])).bind _ = _
      rw [readTyped_ptr_tokens ty hptr]
      exact if_pos rfl
  | store ty value ptr =>
      obtain ⟨hvalue, hptr⟩ := h
      show readStore (ty.tokens ++ _) = _
      unfold readStore
      rw [ty.readType_tokens]
      show (readOperand value.text).bind (fun value =>
        (readTyped (ty.tokens ++ [.mark '*', .word ptr.text])).bind _) = _
      rw [hvalue.read, readTyped_ptr_tokens ty hptr]
      exact if_pos rfl
  | elementPtr result elem ptr indices =>
      obtain ⟨hresult, hptr, hne, hindices⟩ := h
      rw [tokens, readInstr_defining hresult]
      show readElementPtr result _ = _
      unfold readElementPtr
      rw [elem.readType_tokens]
      show (readType (elem.tokens ++ .mark '*' :: _)).bind _ = _
      rw [elem.readType_tokens]
      show (readOperand ptr.text).bind (fun ptr => (readIndices _).bind _) = _
      rw [hptr.read, readIndices_tokens hne hindices]
      exact if_pos ⟨rfl, hne⟩
  | bitcast result source value target =>
      obtain ⟨hresult, hvalue⟩ := h
      rw [tokens, readInstr_defining hresult]
      show readBitcast result _ = _
      unfold readBitcast
      rw [source.readType_tokens]
      show (readOperand value.text).bind (fun value => (readType target.tokens).bind _) = _
      rw [hvalue.read, ← List.append_nil target.tokens, target.readType_tokens]
      rfl
  | methodCast result value target =>
      obtain ⟨hresult, hvalue⟩ := h
      have hclosing : IrToken.mark ')' ∉ commaTokens (target.params.map IrTy.tokens) :=
        mark_not_mem_commaTokens (by decide)
          (List.forall_mem_map.mpr fun ty _ => ty.mark_not_mem_tokens (by decide))
      rw [tokens, readInstr_defining hresult]
      show readBitcast result _ = _
      unfold readBitcast
      rw [IrTy.readType_tokens]
      show (readOperand value.text).bind (fun value => (readType (target.ret.tokens ++ _)).bind _) = _
      rw [hvalue.read, target.ret.readType_tokens]
      show (splitClosing _).bind _ = _
      rw [splitClosing_append hclosing]
      show (readList readOnlyType _).bind _ = _
      rw [readTypes_tokens]
      rfl
  | call result ty callee args =>
      obtain ⟨hresult, hcallee, hargs⟩ := h
      have hread := readCall_tokens (fun r hr => (hresult r hr).2) hcallee hargs
      cases result with
      | none => exact hread
      | some r =>
          show readInstr (.word r.text :: .mark '=' :: .word "call" :: _) = _
          rw [readInstr_defining (hresult r rfl).1]
          exact hread
  | phi result ty incoming =>
      obtain ⟨hresult, hne, hincoming⟩ := h
      rw [tokens, readInstr_defining hresult]
      show readPhi result _ = _
      have hvalues := readIncoming_tokens hne fun v hv => (hincoming v hv).1
      obtain ⟨ts, hts⟩ := exists_commaTokens_incoming hne
      rw [hts] at hvalues ⊢
      unfold readPhi
      rw [ty.readType_tokens]
      show (readIncoming (.mark '[' :: ts)).bind _ = _
      rw [hvalues]
      rfl
  | branch target =>
      show (readTarget ("%" ++ target.text)).map branch = _
      rw [target.read_target, Option.map_some]
  | branchIf cond ifTrue ifFalse =>
      obtain ⟨hcond, _, _⟩ := h
      show (readOperand cond.text).bind (fun cond => (readTarget ("%" ++ ifTrue.text)).bind fun ifTrue =>
        (readTarget ("%" ++ ifFalse.text)).bind fun ifFalse => some (branchIf cond ifTrue ifFalse)) = _
      rw [hcond.read, ifTrue.read_target, ifFalse.read_target]
      rfl
  | ret ty value =>
      have hvalue : value.Clean := h
      show readRet (ty.tokens ++ _) = _
      rw [readRet, readTyped_tokens ty hvalue]
  | retVoid => rfl

end Instr

/-! ### Modules -/

theorem readInner_tokens {line : Line} (h : line.Clean) : readInner line.tokens = some (.code line) := by
  unfold readInner
  cases line with
  | label l =>
      have hinstr : readInstr [.word l.text, .mark ':'] = none := by
        unfold readInstr
        cases hreg : readReg l.text with
        | none =>
            simp only [hreg]
            unfold readPlain
            split <;> rfl
        | some r =>
            simp only [hreg]
            rfl
      rw [Line.tokens, hinstr]
      show (readLabel l.text).map _ = _
      rw [l.read, Option.map_some]
  | instr i => rw [Line.tokens, Instr.read_tokens h]

theorem IsGlobalName.read {name : String} (h : IsGlobalName name) : readGlobalName name = some name := by
  obtain ⟨word, hname, _⟩ := h
  unfold readGlobalName
  rw [if_pos (by rw [hname, List.head?_cons])]

theorem readParam_tokens (p : IrTy × String) : readParam (p.1.tokens ++ [.word ("%" ++ p.2)]) = some p := by
  have hname : ("%" ++ p.2).toList = '%' :: p.2.toList := String.toList_append
  unfold readParam
  rw [p.1.readType_tokens]
  simp only [readStars, Option.bind_eq_bind, Option.bind_some, hname, String.ofList_toList]
  rfl

theorem FnSig.read_openingTokens {sig : FnSig} (hname : IsGlobalName sig.name) :
    readOuter sig.openingTokens = some (.opening sig) := by
  have hclosing : IrToken.mark ')' ∉ commaTokens (sig.params.map fun p => p.1.tokens ++ [.word ("%" ++ p.2)]) :=
    mark_not_mem_commaTokens (by decide)
      (List.forall_mem_map.mpr fun p _ => mark_not_mem_typed (by decide) p.1 ("%" ++ p.2))
  have hparams : readList readParam (commaTokens (sig.params.map fun p => p.1.tokens ++ [.word ("%" ++ p.2)])) =
      some sig.params :=
    readList_commaTokens (fun p _ => readParam_tokens p)
      (fun p _ => mark_not_mem_typed (by decide) p.1 ("%" ++ p.2))
      fun p _ => List.append_ne_nil_of_right_ne_nil _ (List.cons_ne_nil _ _)
  show (readType (sig.ret.tokens ++ _)).bind _ = _
  rw [sig.ret.readType_tokens]
  show (readGlobalName sig.name).bind _ = _
  rw [hname.read]
  show (splitClosing _).bind _ = _
  rw [splitClosing_append hclosing]
  show (readList readParam _).bind _ = _
  rw [hparams]
  rfl

/-- Types alone do not end with an ellipsis. -/
theorem readVariadic_types (tys : List IrTy) : readVariadic (commaTokens (tys.map IrTy.tokens)) = none := by
  unfold readVariadic
  by_cases hne : tys = []
  · subst hne
    rfl
  · have hcomma : ∀ item ∈ tys.map IrTy.tokens, IrToken.mark ',' ∉ item :=
      List.forall_mem_map.mpr fun ty _ => ty.mark_not_mem_tokens (by decide)
    have hlast : (tys.map IrTy.tokens).getLast? ≠ some [.word "..."] := by
      intro hlast
      obtain ⟨ty, _, hty⟩ := List.mem_map.mp (List.mem_of_getLast? hlast)
      have hread := readOnlyType_tokens ty
      rw [hty] at hread
      cases hread
    rw [commaTokens, List.splitOn_intercalate _ hcomma (mt List.map_eq_nil_iff.mp hne), if_neg hlast]

theorem External.read_tokens {e : External} (hname : IsGlobalName e.name) :
    readOuter e.tokens = some (.global e.name (.function e.ret e.params e.isVariadic)) := by
  have hclosing : IrToken.mark ')' ∉
      commaTokens (e.params.map IrTy.tokens ++ if e.isVariadic then [[.word "..."]] else []) := by
    apply mark_not_mem_commaTokens (by decide)
    apply mark_not_mem_types (by decide)
    split <;> simp
  have hread : readDeclaration e.tokens = some (.global e.name (.function e.ret e.params e.isVariadic)) := by
    show (readType (e.ret.tokens ++ _)).bind _ = _
    rw [e.ret.readType_tokens]
    show (readGlobalName e.name).bind _ = _
    rw [hname.read]
    show (splitClosing _).bind _ = _
    rw [splitClosing_append hclosing, Option.bind_some]
    cases hvariadic : e.isVariadic with
    | true => simp only [if_true, readVariadic_tokens]; rfl
    | false =>
        simp only [Bool.false_eq_true, if_false, List.append_nil, readVariadic_types, readTypes_tokens]
        rfl
  show (readDeclaration e.tokens <|> readDefinition e.tokens) = _
  rw [hread]
  rfl

theorem readOuter_value {name kind : String} (hname : IsGlobalName name) (hkind : kind = "constant" ∨ kind = "global")
    (ty : IrTy) {t : IrToken} (ht : t ≠ .mark '*') (ts : List IrToken) :
    readOuter (.word name :: .mark '=' :: .word kind :: (ty.tokens ++ t :: ts)) =
      some (.global name (.value (.ptr ty))) := by
  have hstars : readStars ty (t :: ts) = (ty, t :: ts) := by
    unfold readStars
    split
    · next heq => exact absurd (List.cons.inj heq).1 ht
    · rfl
  have hread : readValue (.word name :: .mark '=' :: .word kind :: (ty.tokens ++ t :: ts)) =
      some (.global name (.value (.ptr ty))) := by
    unfold readValue
    simp only [hname.read]
    show (readType (ty.tokens ++ t :: ts)).bind _ = _
    rw [ty.readType_tokens, hstars]
    exact if_pos hkind
  unfold readOuter
  rw [if_neg (List.cons_ne_nil _ _), hread]
  rfl

/-- What stands in a text outside of functions and the functions in it are read in front of anything. -/
def Tells (text : String) (globals : List (String × OperandTy)) (functions : List IrFunction) : Prop :=
  ∀ rest, IrText.ofLines? none (lineTokens (text.toList ++ rest)) =
    (IrText.ofLines? none (lineTokens rest)).map fun t => ⟨globals ++ t.globals, functions ++ t.functions⟩

theorem HasLine.lineTokens {text : String} {ts : List IrToken} (h : HasLine text ts) (rest : List Char) :
    lineTokens (text.toList ++ rest) = ts :: lineTokens rest := by
  obtain ⟨line, rfl, hline⟩ := h
  have htext : (line ++ "\n").toList ++ rest = line.toList ++ '\n' :: rest := by simp
  rw [htext, Demitasse.lineTokens, List.splitOn_append_cons_self, List.splitOn_eq_singleton hline.newline,
    List.map_append, List.map_singleton, hline.tokens]
  rfl

namespace Tells

variable {text text' : String} {globals globals' : List (String × OperandTy)} {functions functions' : List IrFunction}

theorem read (h : Tells text globals functions) : IrText.read? text = some ⟨globals, functions⟩ := by
  have hread := h []
  rw [List.append_nil] at hread
  rw [IrText.read?, hread]
  show some (IrText.mk (globals ++ []) (functions ++ [])) = _
  rw [List.append_nil, List.append_nil]

theorem append (h : Tells text globals functions) (h' : Tells text' globals' functions') :
    Tells (text ++ text') (globals ++ globals') (functions ++ functions') := by
  intro rest
  rw [String.toList_append, List.append_assoc, h, h', Option.map_map]
  congr 1
  funext t
  simp [List.append_assoc]

theorem join {α : Type} {render : α → String} {globals : α → List (String × OperandTy)}
    {functions : α → List IrFunction} {l : List α} (h : ∀ a ∈ l, Tells (render a) (globals a) (functions a)) :
    Tells (String.join (l.map render)) (l.flatMap globals) (l.flatMap functions) := by
  induction l with
  | nil =>
      intro rest
      exact (congrFun Option.map_id _).symm
  | cons a l ih =>
      obtain ⟨ha, hl⟩ := List.forall_mem_cons.mp h
      rw [List.map_cons, String.join_cons, List.flatMap_cons, List.flatMap_cons]
      exact ha.append (ih hl)

theorem newline : Tells "\n" [] [] := by
  intro rest
  have hline : HasLine "\n" [] := ⟨"", rfl, rfl, List.not_mem_nil⟩
  rw [hline.lineTokens]
  exact (congrFun Option.map_id _).symm

theorem global {ts : List IrToken} {name : String} {ty : OperandTy} (h : HasLine text ts)
    (hread : readOuter ts = some (.global name ty)) : Tells text [(name, ty)] [] := by
  intro rest
  rw [h.lineTokens, IrText.ofLines?]
  simp only [hread]
  rfl

end Tells

/-- The code of a function is read line by line. -/
theorem Code.read_render {c : Code} (h : c.Clean) (f : IrFunction) (rest : List Char) :
    IrText.ofLines? (some f) (lineTokens ((String.join (c.map Line.render)).toList ++ rest)) =
      IrText.ofLines? (some { f with code := f.code ++ c }) (lineTokens rest) := by
  induction c generalizing f with
  | nil => rw [List.append_nil]; rfl
  | cons line c ih =>
      obtain ⟨hline, hc⟩ := List.forall_mem_cons.mp h
      rw [List.map_cons, String.join_cons, String.toList_append, List.append_assoc, (Line.hasLine hline).lineTokens,
        IrText.ofLines?]
      simp only [readInner_tokens hline]
      rw [ih hc, List.append_assoc, List.singleton_append]

theorem IrFunction.Clean.tells {f : IrFunction} (h : f.Clean) :
    Tells f.render [(f.sig.name, f.sig.operandTy)] [f] := by
  intro rest
  have hend : HasLine Written.definitionEnd [.mark '\x7d'] := ⟨"\x7d", rfl, rfl, by decide⟩
  rw [IrFunction.render, String.toList_append, String.toList_append, List.append_assoc, List.append_assoc,
    (FnSig.hasLine_definition h.name h.params).lineTokens, IrText.ofLines?]
  simp only [FnSig.read_openingTokens h.name]
  rw [Code.read_render h.code, hend.lineTokens, List.nil_append, IrText.ofLines?]
  simp only [show readInner [.mark '\x7d'] = some .closing from rfl]
  rw [Option.map_map]
  rfl

theorem tells_preamble : Tells preamble.render
    (preamble.externals.map (fun e => (e.name, .function e.ret e.params e.isVariadic))
      ++ preamble.strings.map (fun s => (s.name, .value (.ptr s.ty)))
      ++ preamble.helpers.map (fun f => (f.sig.name, f.sig.operandTy))) preamble.helpers := by
  have hname := isGlobalName_of_mem_runtimeNames
  have hexternals : ∀ e ∈ preamble.externals, e.name ∈ runtimeNames := by decide
  have hstrings : ∀ s ∈ preamble.strings, s.name ∈ runtimeNames ∧
      '\n' ∉ (String.join (s.text.toUTF8.data.toList.map Written.stringByte)).toList := by decide +kernel
  have hdeclarations := Tells.join fun e he =>
    Tells.global (External.hasLine (hname _ (hexternals e he))) (External.read_tokens (hname _ (hexternals e he)))
  have htexts : ∀ s ∈ preamble.strings, Tells s.render [(s.name, .value (.ptr s.ty))] [] := by
    intro s hs
    obtain ⟨ts, hline⟩ := StringConstant.exists_hasLine (hname _ (hstrings s hs).1) (hstrings s hs).2
    exact .global hline (readOuter_value (hname _ (hstrings s hs).1) (.inl rfl) s.ty (by simp) ts)
  have hprint := (helpers_clean printInt (by simp [preamble])).tells
  have hthrow := (helpers_clean throwOutOfBounds (by simp [preamble])).tells
  have hall := (((hdeclarations.append .newline).append (.join htexts)).append .newline).append
    ((hprint.append .newline).append hthrow)
  rw [Preamble.render, show "\n".intercalate (preamble.helpers.map IrFunction.render) =
    printInt.render ++ "\n" ++ throwOutOfBounds.render by simp [preamble, String.intercalate_cons_cons]]
  exact hall

/-- What a module says about its global names, in the order of its text. -/
def IrModule.globals (M : IrModule) : List (String × OperandTy) :=
  M.preamble.externals.map (fun e => (e.name, .function e.ret e.params e.isVariadic))
    ++ M.preamble.strings.map (fun s => (s.name, .value (.ptr s.ty)))
    ++ M.preamble.helpers.map (fun f => (f.sig.name, f.sig.operandTy))
    ++ M.tables.map (fun t => (t.name, .value (.ptr (.array t.entries.length .address))))
    ++ M.functions.map (fun f => (f.sig.name, f.sig.operandTy))

/-- A module is read back from its text. -/
theorem IrModule.read_render {M : IrModule} (hpreamble : M.preamble = Demitasse.preamble)
    (htables : ∀ t ∈ M.tables, t.Clean) (hfunctions : ∀ f ∈ M.functions, f.Clean) :
    IrText.read? M.render = some ⟨M.globals, M.preamble.helpers ++ M.functions⟩ := by
  have htables' : ∀ t ∈ M.tables, Tells t.render [(t.name, .value (.ptr (.array t.entries.length .address)))] [] := by
    intro t ht
    obtain ⟨ts, hline⟩ := (htables t ht).exists_hasLine
    exact .global hline (readOuter_value (htables t ht).name (.inr rfl) _ (by simp) ts)
  have hfunctions' : ∀ f ∈ M.functions, Tells (f.render ++ "\n") [(f.sig.name, f.sig.operandTy)] [f] :=
    fun f hf => (hfunctions f hf).tells.append .newline
  have hall := (((tells_preamble.append .newline).append (.join htables')).append .newline).append (.join hfunctions')
  rw [← hpreamble] at hall
  have hread := hall.read
  simp only [← List.map_eq_flatMap, List.flatMap_eq_nil_iff.mpr fun _ _ => rfl, List.append_nil, List.map_id'] at hread
  exact hread

/-- The text of a program's module says what the module consists of. -/
theorem Program.read_lower {source : String} {p : Program} {a : Analysis} {M : IrModule} (hparse : parse source = .ok p)
    (ha : Analysis.ofProgram p = .ok a) (hM : p.lower a = .ok M) :
    IrText.read? M.render = some ⟨M.globals, M.preamble.helpers ++ M.functions⟩ := by
  have h := Analysis.describes ha
  have hids := nodeIds_nodup_of_parse hparse
  have hp := identified_of_parse hparse
  exact IrModule.read_render (Program.lower_eq_ok hM).1 (fun t ht => h.clean_table hids hp hM ht) (h.clean hids hp hM)

/-- The function is read from a text. -/
def IrFunction.WrittenIn (f : IrFunction) (text : String) : Prop :=
  ∃ T, IrText.read? text = some T ∧ f ∈ T.functions

theorem Program.writtenIn_of_lower {source : String} {p : Program} {a : Analysis} {M : IrModule} {f : IrFunction}
    (hparse : parse source = .ok p) (ha : Analysis.ofProgram p = .ok a) (hM : p.lower a = .ok M)
    (hf : f ∈ M.functions) : f.WrittenIn M.render :=
  ⟨_, Program.read_lower hparse ha hM, List.mem_append_right _ hf⟩

end Demitasse
