import Demitasse.Proofs.IrReader
import Demitasse.Proofs.Mentions
import Mathlib.Data.List.SplitBy

/-! The words and marks of what is written. A line is put together from words and from texts between them that neither
start nor end inside a word, so its words and marks are those of its parts in a row. -/

namespace Demitasse

section
variable {text rest word : List Char}

/-- A text can be cut where no word goes on. -/
theorem irTokens_append (h : ∀ c ∈ text.getLast?, ∀ d ∈ rest.head?, (isIrWordChar c && isIrWordChar d) = false) :
    irTokens (text ++ rest) = irTokens text ++ irTokens rest := by
  unfold irTokens
  rw [List.splitBy_append h, List.filterMap_append]

theorem irTokens_word (hne : word ≠ []) (h : ∀ c ∈ word, isIrWordChar c = true) :
    irTokens word = [.word (String.ofList word)] := by
  have hchain : word.IsChain fun c d => (isIrWordChar c && isIrWordChar d) = true := by
    apply List.Pairwise.isChain
    apply List.pairwise_of_forall_mem_list
    intro c hc d hd
    rw [h c hc, h d hd, Bool.and_self]
  have hrun : IrToken.ofRun? word = some (.word (String.ofList word)) := by
    cases word with
    | nil => exact absurd rfl hne
    | cons c word => exact if_pos (h c List.mem_cons_self)
  unfold irTokens
  rw [List.splitBy_of_isChain hne hchain, List.filterMap_cons_some hrun, List.filterMap_nil]

end

/-- A text inside a line, and its words and marks. -/
structure HasTokens (text : String) (ts : List IrToken) : Prop where
  tokens : irTokens text.toList = ts
  newline : '\n' ∉ text.toList

/-- A text in front of something, which does not end inside a word. -/
def EndsApart (text : String) : Prop :=
  '\n' ∉ text.toList ∧ text.toList.getLast?.map isIrWordChar = some false

/-- A text between two things, which does not start inside a word either. -/
def Divides (text : String) : Prop :=
  EndsApart text ∧ text.toList.head?.map isIrWordChar = some false

instance {text : String} : Decidable (EndsApart text) :=
  inferInstanceAs (Decidable (_ ∧ _))

instance {text : String} : Decidable (Divides text) :=
  inferInstanceAs (Decidable (_ ∧ _))

namespace HasTokens

variable {text head mark : String} {ts us : List IrToken}

theorem of_eq (h : HasTokens text ts) (heq : ts = us) : HasTokens text us :=
  heq ▸ h

theorem word (hne : text ≠ "") (h : ∀ c ∈ text.toList, isIrWordChar c = true) : HasTokens text [.word text] := by
  constructor
  · rw [irTokens_word (mt String.toList_eq_nil_iff.mp hne) h, String.ofList_toList]
  · intro hmem
    exact absurd (h _ hmem) (by decide)

theorem append (h : HasTokens head ts) (h' : HasTokens text us)
    (hcut : ∀ c ∈ head.toList.getLast?, ∀ d ∈ text.toList.head?, (isIrWordChar c && isIrWordChar d) = false) :
    HasTokens (head ++ text) (ts ++ us) := by
  constructor
  · rw [String.toList_append, irTokens_append hcut, h.tokens, h'.tokens]
  · rw [String.toList_append, List.mem_append, not_or]
    exact ⟨h.newline, h'.newline⟩

theorem behind (h : HasTokens text ts) (hmark : EndsApart mark) :
    HasTokens (mark ++ text) (irTokens mark.toList ++ ts) := by
  obtain ⟨hline, hlast⟩ := hmark
  apply append ⟨rfl, hline⟩ h
  intro c hc d _
  rw [hc, Option.map_some, Option.some.injEq] at hlast
  rw [hlast, Bool.false_and]

theorem close (h : HasTokens head ts) (hmark : Divides mark) :
    HasTokens (head ++ mark) (ts ++ irTokens mark.toList) := by
  obtain ⟨⟨hline, _⟩, hfirst⟩ := hmark
  apply h.append ⟨rfl, hline⟩
  intro c _ d hd
  rw [hd, Option.map_some, Option.some.injEq] at hfirst
  rw [hfirst, Bool.and_false]

/-- What stands on both sides of a text that divides a line keeps its words and marks. -/
theorem follow (h : HasTokens head ts) (hmark : Divides mark) (h' : HasTokens text us) :
    HasTokens (head ++ mark ++ text) (ts ++ (irTokens mark.toList ++ us)) := by
  have htext := h'.behind hmark.1
  obtain ⟨⟨_, _⟩, hfirst⟩ := hmark
  rw [String.append_assoc]
  apply h.append htext
  intro c _ d hd
  obtain ⟨e, he, hout⟩ := Option.map_eq_some_iff.mp hfirst
  rw [String.toList_append, List.head?_append, he, Option.some_or, Option.mem_some_iff] at hd
  rw [← hd, hout, Bool.and_false]

end HasTokens

theorem ne_empty_of_toList {s : String} {c : Char} {cs : List Char} (h : s.toList = c :: cs) : s ≠ "" := by
  rintro rfl
  cases h

theorem isIrWordChar_of_isNameChar {c : Char} (h : isNameChar c = true) : isIrWordChar c = true := by
  rw [isNameChar, isWordChar] at h
  rw [isIrWordChar]
  simp only [Bool.or_eq_true, decide_eq_true_eq] at h ⊢
  rcases h with (h | rfl) | rfl
  · exact .inl h
  · exact .inr rfl
  · exact .inr rfl

theorem isIrWordChar_of_isDigit {c : Char} (h : c.isDigit = true) : isIrWordChar c = true := by
  simp [isIrWordChar, Char.isAlphanum, h]

theorem toString_ne_empty (n : Nat) : toString n ≠ "" := by
  intro h
  have hdigits := congrArg String.toList h
  rw [Nat.toString_eq_ofList_toDigits, String.toList_ofList] at hdigits
  exact Nat.toDigits_ne_nil hdigits

theorem hasTokens_toString (n : Nat) : HasTokens (toString n) [.word (toString n)] :=
  .word (toString_ne_empty n) fun _ hc => isIrWordChar_of_isDigit (isDigit_of_mem_toString hc)

namespace Reg

variable {r : Reg}

theorem Legible.hasTokens (h : r.Legible) : HasTokens r.text [.word r.text] := by
  cases r with
  | temp n =>
      apply HasTokens.word (ne_empty_of_toList (toList_text_temp n))
      rw [toList_text_temp]
      refine List.forall_mem_cons.mpr ⟨rfl, List.forall_mem_cons.mpr ⟨rfl, fun c hc => ?_⟩⟩
      exact isIrWordChar_of_isDigit (isDigit_of_mem_toString hc)
  | named name =>
      apply HasTokens.word (ne_empty_of_toList (toList_text_named name))
      rw [toList_text_named]
      exact List.forall_mem_cons.mpr ⟨rfl, fun c hc => isIrWordChar_of_isNameChar (h.1 c hc)⟩

end Reg

namespace Label

variable {l : Label}

theorem Legible.isIrWordChar (h : l.Legible) : ∀ c ∈ l.text.toList, isIrWordChar c = true := by
  rw [toList_text]
  refine List.forall_mem_append.mpr ⟨fun c hc => isIrWordChar_of_isNameChar (h c hc), ?_⟩
  exact List.forall_mem_cons.mpr ⟨rfl, fun c hc => isIrWordChar_of_isDigit (isDigit_of_mem_toString hc)⟩

theorem Legible.hasTokens (h : l.Legible) : HasTokens l.text [.word l.text] := by
  apply HasTokens.word _ h.isIrWordChar
  intro hempty
  have hnil := congrArg String.toList hempty
  rw [toList_text] at hnil
  exact List.append_ne_nil_of_right_ne_nil _ (List.cons_ne_nil _ _) hnil

theorem Legible.hasTokens_target (h : l.Legible) : HasTokens ("%" ++ l.text) [.word ("%" ++ l.text)] := by
  have htext : ("%" ++ l.text).toList = '%' :: l.text.toList := String.toList_append
  apply HasTokens.word (ne_empty_of_toList htext)
  rw [htext]
  exact List.forall_mem_cons.mpr ⟨rfl, h.isIrWordChar⟩

end Label

namespace Operand

variable {o : Operand}

theorem Clean.hasTokens (h : o.Clean) : HasTokens o.text [.word o.text] := by
  cases o with
  | reg r => exact Reg.Legible.hasTokens h
  | const n => exact hasTokens_toString n
  | global name =>
      obtain ⟨word, hname, hword⟩ := h
      apply HasTokens.word (ne_empty_of_toList hname)
      rw [hname]
      exact List.forall_mem_cons.mpr ⟨rfl, fun c hc => isIrWordChar_of_isNameChar (hword c hc)⟩

end Operand

namespace IrTy

/-- The words and marks of a type. -/
def tokens : IrTy → List IrToken
  | .i1 => [.word "i1"]
  | .i8 => [.word "i8"]
  | .i32 => [.word "i32"]
  | .void => [.word "void"]
  | .ptr elem => elem.tokens ++ [.mark '*']
  | .array len elem => .mark '[' :: .word (toString len) :: .word "x" :: (elem.tokens ++ [.mark ']'])

theorem hasTokens (ty : IrTy) : HasTokens ty.text ty.tokens := by
  induction ty with
  | ptr elem ih => exact ih.close (by decide)
  | array len elem ih =>
      apply HasTokens.of_eq ((((hasTokens_toString len).behind (by decide)).follow (by decide) ih).close (by decide))
      rw [List.append_assoc, List.append_assoc, List.append_assoc]
      rfl
  | _ => exact .word (by decide) (List.all_eq_true.mp rfl)

end IrTy

/-- Items with commas between them. -/
def commaTokens (items : List (List IrToken)) : List IrToken :=
  [IrToken.mark ','].intercalate items

theorem commaTokens_singleton (item : List IrToken) : commaTokens [item] = item := by
  unfold commaTokens
  rw [List.intercalate_singleton]

theorem commaTokens_cons_cons (item item' : List IrToken) (items : List (List IrToken)) :
    commaTokens (item :: item' :: items) = item ++ .mark ',' :: commaTokens (item' :: items) := by
  unfold commaTokens
  rw [List.intercalate_cons_cons]
  simp

theorem hasTokens_commas {α : Type} {text : α → String} {tokens : α → List IrToken} {l : List α}
    (h : ∀ a ∈ l, HasTokens (text a) (tokens a)) :
    HasTokens (Written.commas (l.map text)) (commaTokens (l.map tokens)) := by
  induction l with
  | nil => exact ⟨rfl, List.not_mem_nil⟩
  | cons a l ih =>
      obtain ⟨ha, hl⟩ := List.forall_mem_cons.mp h
      cases l with
      | nil =>
          rw [List.map_singleton, List.map_singleton, commaTokens_singleton]
          exact ha
      | cons b l =>
          rw [List.map_cons, List.map_cons, List.map_cons, List.map_cons, commas_cons_cons, commaTokens_cons_cons]
          exact ha.follow (by decide) (ih hl)

/-- The words and marks of a callee's type. -/
def CalleeTy.tokens : CalleeTy → List IrToken
  | .returns ty => ty.tokens
  | .variadic ty fixed =>
    ty.tokens ++ .mark '(' :: (commaTokens (fixed.map IrTy.tokens ++ [[.word "..."]]) ++ [.mark ')'])

namespace Instr

/-- The words and marks of an instruction. -/
def tokens : Instr → List IrToken
  | .arith result op ty lhs rhs =>
    .word result.text :: .mark '=' :: .word op.mnemonic :: (ty.tokens ++ [.word lhs.text, .mark ',', .word rhs.text])
  | .compare result cmp ty lhs rhs =>
    .word result.text :: .mark '=' :: .word "icmp" :: .word cmp.mnemonic ::
      (ty.tokens ++ [.word lhs.text, .mark ',', .word rhs.text])
  | .alloca result ty => .word result.text :: .mark '=' :: .word "alloca" :: ty.tokens
  | .load result ty ptr =>
    .word result.text :: .mark '=' :: .word "load" ::
      (ty.tokens ++ .mark ',' :: (ty.tokens ++ [.mark '*', .word ptr.text]))
  | .store ty value ptr =>
    .word "store" :: (ty.tokens ++ .word value.text :: .mark ',' :: (ty.tokens ++ [.mark '*', .word ptr.text]))
  | .elementPtr result elem ptr indices =>
    .word result.text :: .mark '=' :: .word "getelementptr" ::
      (elem.tokens ++ .mark ',' :: (elem.tokens ++ .mark '*' :: .word ptr.text :: .mark ',' ::
        commaTokens (indices.map fun o => [.word "i32", .word o.text])))
  | .bitcast result source value target =>
    .word result.text :: .mark '=' :: .word "bitcast" ::
      (source.tokens ++ .word value.text :: .word "to" :: target.tokens)
  | .methodCast result value target =>
    .word result.text :: .mark '=' :: .word "bitcast" ::
      (IrTy.address.tokens ++ .word value.text :: .word "to" :: (target.ret.tokens ++
        .mark '(' :: (commaTokens (target.params.map IrTy.tokens) ++ [.mark ')', .mark '*'])))
  | .call result ty callee args =>
    (result.elim [] fun r => [.word r.text, .mark '=']) ++ .word "call" :: (ty.tokens ++
      .word callee.text :: .mark '(' ::
        (commaTokens (args.map fun arg => arg.1.tokens ++ [.word arg.2.text]) ++ [.mark ')']))
  | .phi result ty incoming =>
    .word result.text :: .mark '=' :: .word "phi" :: (ty.tokens ++ commaTokens (incoming.map fun v =>
      [.mark '[', .word v.1.text, .mark ',', .word ("%" ++ v.2.text), .mark ']']))
  | .branch target => [.word "br", .word "label", .word ("%" ++ target.text)]
  | .branchIf cond ifTrue ifFalse =>
    [.word "br", .word "i1", .word cond.text, .mark ',', .word "label", .word ("%" ++ ifTrue.text), .mark ',',
      .word "label", .word ("%" ++ ifFalse.text)]
  | .ret ty value => .word "ret" :: (ty.tokens ++ [.word value.text])
  | .retVoid => [.word "ret", .word "void"]

end Instr

theorem ArithOp.hasTokens (op : ArithOp) : HasTokens op.mnemonic [.word op.mnemonic] := by
  cases op <;> exact .word (by decide) (List.all_eq_true.mp rfl)

theorem Comparison.hasTokens (cmp : Comparison) : HasTokens cmp.mnemonic [.word cmp.mnemonic] := by
  cases cmp <;> exact .word (by decide) (List.all_eq_true.mp rfl)

theorem FnTy.hasTokens_pointerText (ty : FnTy) : HasTokens ty.pointerText
    (ty.ret.tokens ++ .mark '(' :: (commaTokens (ty.params.map IrTy.tokens) ++ [.mark ')', .mark '*'])) := by
  have hparams := hasTokens_commas fun (param : IrTy) (_ : param ∈ ty.params) => param.hasTokens
  apply HasTokens.of_eq (((ty.ret.hasTokens.follow (by decide) hparams).close (by decide)).close (by decide))
  simp only [List.append_assoc]
  rfl

theorem hasTokens_variadicParams (fixed : List IrTy) :
    HasTokens (variadicParams fixed) (commaTokens (fixed.map IrTy.tokens ++ [[.word "..."]])) := by
  have hitems : ∀ item ∈ fixed.map (fun ty => (ty.text, ty.tokens)) ++ [("...", [IrToken.word "..."])],
      HasTokens item.1 item.2 := by
    refine List.forall_mem_append.mpr ⟨List.forall_mem_map.mpr fun ty _ => ty.hasTokens, ?_⟩
    exact List.forall_mem_singleton.mpr (.word (by decide) (List.all_eq_true.mp rfl))
  have hall := hasTokens_commas hitems
  rw [List.map_append, List.map_append, List.map_map, List.map_map] at hall
  exact hall

theorem CalleeTy.hasTokens (ty : CalleeTy) : HasTokens ty.text ty.tokens := by
  cases ty with
  | returns ty => exact ty.hasTokens
  | variadic ty fixed =>
      apply HasTokens.of_eq ((ty.hasTokens.follow (by decide) (hasTokens_variadicParams fixed)).close (by decide))
      rw [List.append_assoc, List.append_assoc]
      rfl

theorem IrTy.text_ne_void {ty : IrTy} (h : ty ≠ .void) : ty.text ≠ "void" := by
  cases ty with
  | void => exact absurd rfl h
  | ptr elem =>
      intro htext
      have hmem : '*' ∈ "void".toList := by
        rw [← htext]
        simp [text]
      exact absurd hmem (by decide)
  | array len elem =>
      intro htext
      have hmem : '[' ∈ "void".toList := by
        rw [← htext]
        simp [text]
      exact absurd hmem (by decide)
  | _ => decide

theorem CalleeTy.text_ne_void {ty : CalleeTy} (h : ty.ret ≠ .void) : ty.text ≠ "void" := by
  cases ty with
  | returns ty => exact ty.text_ne_void h
  | variadic ty fixed =>
      intro htext
      have hmem : '(' ∈ "void".toList := by
        rw [← htext]
        simp [text]
      exact absurd hmem (by decide)

namespace Instr

theorem exists_hasTokens {i : Instr} (h : i.Clean) :
    ∃ text, i.render = Written.instruction text ∧ HasTokens text i.tokens := by
  cases i with
  | arith result op ty lhs rhs =>
      obtain ⟨hresult, hlhs, hrhs⟩ := h
      refine ⟨_, rfl, HasTokens.of_eq (hresult.hasTokens
        |>.follow (by decide) op.hasTokens
        |>.follow (by decide) ty.hasTokens
        |>.follow (by decide) hlhs.hasTokens
        |>.follow (by decide) hrhs.hasTokens) ?_⟩
      simp only [List.append_assoc]
      rfl
  | load result ty ptr =>
      obtain ⟨hresult, hptr⟩ := h
      refine ⟨_, rfl, HasTokens.of_eq (hresult.hasTokens
        |>.follow (by decide) ty.hasTokens
        |>.follow (by decide) ty.hasTokens
        |>.follow (by decide) hptr.hasTokens) ?_⟩
      simp only [List.append_assoc]
      rfl
  | store ty value ptr =>
      obtain ⟨hvalue, hptr⟩ := h
      refine ⟨_, rfl, HasTokens.of_eq (ty.hasTokens
        |>.behind (by decide)
        |>.follow (by decide) hvalue.hasTokens
        |>.follow (by decide) ty.hasTokens
        |>.follow (by decide) hptr.hasTokens) ?_⟩
      simp only [List.append_assoc]
      rfl
  | compare result cmp ty lhs rhs =>
      obtain ⟨hresult, hlhs, hrhs⟩ := h
      refine ⟨_, rfl, HasTokens.of_eq (hresult.hasTokens
        |>.follow (by decide) cmp.hasTokens
        |>.follow (by decide) ty.hasTokens
        |>.follow (by decide) hlhs.hasTokens
        |>.follow (by decide) hrhs.hasTokens) ?_⟩
      simp only [List.append_assoc]
      rfl
  | alloca result ty =>
      have hresult : result.Legible := h
      exact ⟨_, rfl, hresult.hasTokens.follow (by decide) ty.hasTokens⟩
  | elementPtr result elem ptr indices =>
      obtain ⟨hresult, hptr, _, hindices⟩ := h
      have hitems : HasTokens (Written.commas ((indices.map Operand.text).map ("i32 " ++ ·)))
          (commaTokens (indices.map fun o => [.word "i32", .word o.text])) := by
        rw [List.map_map]
        exact hasTokens_commas fun o ho => (hindices o ho).hasTokens.behind (by decide)
      refine ⟨_, rfl, HasTokens.of_eq (hresult.hasTokens
        |>.follow (by decide) elem.hasTokens
        |>.follow (by decide) elem.hasTokens
        |>.follow (by decide) hptr.hasTokens
        |>.follow (by decide) hitems) ?_⟩
      simp only [List.append_assoc]
      rfl
  | bitcast result source value target =>
      obtain ⟨hresult, hvalue⟩ := h
      refine ⟨_, rfl, HasTokens.of_eq (hresult.hasTokens
        |>.follow (by decide) source.hasTokens
        |>.follow (by decide) hvalue.hasTokens
        |>.follow (by decide) target.hasTokens) ?_⟩
      simp only [List.append_assoc]
      rfl
  | methodCast result value target =>
      obtain ⟨hresult, hvalue⟩ := h
      refine ⟨_, rfl, HasTokens.of_eq (hresult.hasTokens
        |>.follow (by decide) IrTy.address.hasTokens
        |>.follow (by decide) hvalue.hasTokens
        |>.follow (by decide) target.hasTokens_pointerText) ?_⟩
      simp only [List.append_assoc]
      rfl
  | call result ty callee args =>
      obtain ⟨hresult, hcallee, hargs⟩ := h
      have hitems : HasTokens (Written.commas ((args.map fun arg => (arg.1, arg.2.text)).map fun arg =>
          arg.1.text ++ " " ++ arg.2)) (commaTokens (args.map fun arg => arg.1.tokens ++ [.word arg.2.text])) := by
        rw [List.map_map]
        exact hasTokens_commas fun arg harg => arg.1.hasTokens.follow (by decide) (hargs arg harg).hasTokens
      have hcall := ty.hasTokens
        |>.behind (by decide : EndsApart "call ")
        |>.follow (by decide : Divides " ") hcallee.hasTokens
        |>.follow (by decide : Divides "(") hitems
        |>.close (by decide : Divides ")")
      simp only [List.append_assoc] at hcall
      cases result with
      | none => exact ⟨_, rfl, hcall⟩
      | some r =>
          obtain ⟨hr, hret⟩ := hresult r rfl
          exact ⟨_, if_neg (ty.text_ne_void hret), hr.hasTokens.follow (by decide) hcall⟩
  | phi result ty incoming =>
      obtain ⟨hresult, _, hincoming⟩ := h
      have hmark : ", %" = ", " ++ "%" := rfl
      have hitems : HasTokens (Written.commas ((incoming.map fun v => (v.1.text, v.2.text)).map fun v =>
          "[" ++ v.1 ++ ", %" ++ v.2 ++ "]")) (commaTokens (incoming.map fun v =>
            [.mark '[', .word v.1.text, .mark ',', .word ("%" ++ v.2.text), .mark ']'])) := by
        rw [List.map_map]
        refine hasTokens_commas fun v hv => ?_
        obtain ⟨hvalue, hlabel⟩ := hincoming v hv
        have hitem := hvalue.hasTokens.behind (by decide : EndsApart "[")
          |>.follow (by decide : Divides ", ") hlabel.hasTokens_target
          |>.close (by decide : Divides "]")
        show HasTokens ("[" ++ v.1.text ++ ", %" ++ v.2.text ++ "]") _
        rw [hmark]
        simp only [String.append_assoc] at hitem ⊢
        exact hitem
      refine ⟨_, rfl, HasTokens.of_eq (hresult.hasTokens
        |>.follow (by decide) ty.hasTokens
        |>.follow (by decide) hitems) ?_⟩
      simp only [List.append_assoc]
      rfl
  | branch target =>
      have htarget : target.Legible := h
      refine ⟨"br label " ++ ("%" ++ target.text), ?_, htarget.hasTokens_target.behind (by decide)⟩
      rw [← String.append_assoc]
      rfl
  | branchIf cond ifTrue ifFalse =>
      obtain ⟨hcond, htrue, hfalse⟩ := h
      refine ⟨_, ?_, hcond.hasTokens.behind (by decide : EndsApart "br i1 ")
        |>.follow (by decide : Divides ", label ") htrue.hasTokens_target
        |>.follow (by decide : Divides ", label ") hfalse.hasTokens_target⟩
      have hmark : ", label %" = ", label " ++ "%" := rfl
      rw [render, Written.branchIf, hmark]
      simp only [String.append_assoc]
  | ret ty value =>
      have hvalue : value.Clean := h
      exact ⟨_, rfl, (ty.hasTokens.behind (by decide)).follow (by decide) hvalue.hasTokens⟩
  | retVoid => exact ⟨_, rfl, rfl, by decide⟩

end Instr

/-- A text that is a single line. -/
def HasLine (text : String) (ts : List IrToken) : Prop :=
  ∃ line, text = line ++ "\n" ∧ HasTokens line ts

theorem HasTokens.hasLine {head mark : String} {ts : List IrToken} (h : HasTokens (head ++ mark) ts) :
    HasLine (head ++ (mark ++ "\n")) ts :=
  ⟨_, String.append_assoc.symm, h⟩

/-- The words and marks of a line inside a function. -/
def Line.tokens : Line → List IrToken
  | .label l => [.word l.text, .mark ':']
  | .instr i => i.tokens

theorem Line.hasLine {line : Line} (h : line.Clean) : HasLine line.render line.tokens := by
  cases line with
  | label l =>
      have hl : l.Legible := h
      exact (hl.hasTokens.close (by decide : Divides ":")).hasLine
  | instr i =>
      obtain ⟨text, hrender, htext⟩ := Instr.exists_hasTokens h
      exact ⟨"\t" ++ text, hrender, htext.behind (by decide)⟩

/-- The words and marks of the first line of a function. -/
def FnSig.openingTokens (sig : FnSig) : List IrToken :=
  .word "define" :: (sig.ret.tokens ++ .word sig.name :: .mark '(' ::
    (commaTokens (sig.params.map fun p => p.1.tokens ++ [.word ("%" ++ p.2)]) ++ [.mark ')', .mark '\x7b']))

theorem IsGlobalName.hasTokens {name : String} (h : IsGlobalName name) : HasTokens name [.word name] :=
  Operand.Clean.hasTokens (o := .global name) h

theorem FnSig.hasLine_definition {sig : FnSig} (hname : IsGlobalName sig.name)
    (hparams : ∀ p ∈ sig.params, ∀ c ∈ p.2.toList, isNameChar c = true) :
    HasLine (Written.definition sig) sig.openingTokens := by
  have hitems : HasTokens (Written.commas (sig.params.map fun p => p.1.text ++ " %" ++ p.2))
      (commaTokens (sig.params.map fun p => p.1.tokens ++ [.word ("%" ++ p.2)])) := by
    refine hasTokens_commas fun p hp => ?_
    have hreg : HasTokens ("%" ++ p.2) [.word ("%" ++ p.2)] := by
      have htext : ("%" ++ p.2).toList = '%' :: p.2.toList := String.toList_append
      apply HasTokens.word (ne_empty_of_toList htext)
      rw [htext]
      exact List.forall_mem_cons.mpr ⟨rfl, fun c hc => isIrWordChar_of_isNameChar (hparams p hp c hc)⟩
    have hparam := p.1.hasTokens.follow (by decide : Divides " ") hreg
    rw [show " %" = " " ++ "%" from rfl]
    simp only [String.append_assoc] at hparam ⊢
    exact hparam
  have htext := sig.ret.hasTokens.behind (by decide : EndsApart "define ")
    |>.follow (by decide : Divides " ") hname.hasTokens
    |>.follow (by decide : Divides "(") hitems
    |>.close (by decide : Divides ") \x7b")
  simp only [List.append_assoc] at htext
  exact htext.hasLine

/-- The words and marks of the declaration of an external function. -/
def External.tokens (e : External) : List IrToken :=
  .word "declare" :: (e.ret.tokens ++ .word e.name :: .mark '(' ::
    (commaTokens (e.params.map IrTy.tokens ++ if e.isVariadic then [[.word "..."]] else []) ++ [.mark ')']))

theorem External.hasLine {e : External} (hname : IsGlobalName e.name) : HasLine e.render e.tokens := by
  have hparams : HasTokens (if e.isVariadic then variadicParams e.params else Written.commas (e.params.map IrTy.text))
      (commaTokens (e.params.map IrTy.tokens ++ if e.isVariadic then [[.word "..."]] else [])) := by
    split
    · exact hasTokens_variadicParams e.params
    · rw [List.append_nil]
      exact hasTokens_commas fun ty _ => ty.hasTokens
  have htext := e.ret.hasTokens.behind (by decide : EndsApart "declare ")
    |>.follow (by decide : Divides " ") hname.hasTokens
    |>.follow (by decide : Divides "(") hparams
    |>.close (by decide : Divides ")")
  simp only [List.append_assoc] at htext
  exact htext.hasLine

/-- A text is written behind its type, and starts with a word. -/
theorem StringConstant.exists_hasLine {s : StringConstant} (hname : IsGlobalName s.name)
    (hbytes : '\n' ∉ (String.join (s.text.toUTF8.data.toList.map Written.stringByte)).toList) :
    ∃ ts, HasLine s.render (.word s.name :: .mark '=' :: .word "constant" :: (s.ty.tokens ++ .word "c" :: ts)) := by
  rw [render, Written.stringConstant]
  generalize String.join (s.text.toUTF8.data.toList.map Written.stringByte) = bytes at hbytes ⊢
  have htext := hname.hasTokens.follow (by decide : Divides " = constant ") s.ty.hasTokens
    |>.follow (by decide : Divides " c\"") (⟨rfl, hbytes⟩ : HasTokens bytes (irTokens bytes.toList))
    |>.close (by decide : Divides "\\00\"")
  simp only [List.append_assoc] at htext
  exact ⟨_, htext.hasLine⟩

/-- The entries of a table are written behind its type, in brackets. -/
theorem MethodTable.Clean.exists_hasLine {t : MethodTable} (h : t.Clean) :
    ∃ ts, HasLine t.render (.word t.name :: .mark '=' :: .word "global" ::
      ((IrTy.array t.entries.length .address).tokens ++ .mark '[' :: ts)) := by
  have hentries := (says_commas fun s hs => FnSig.says_tableEntry (h.entries s hs)).newline
  rw [render, Written.methodTable, List.length_map]
  generalize Written.commas (t.entries.map FnSig.tableEntry) = entries at hentries ⊢
  have htext := h.name.hasTokens.follow (by decide : Divides " = global ")
    (IrTy.array t.entries.length .address).hasTokens
    |>.follow (by decide : Divides " [") (⟨rfl, hentries⟩ : HasTokens entries (irTokens entries.toList))
    |>.close (by decide : Divides "]")
  simp only [List.append_assoc] at htext
  exact ⟨_, htext.hasLine⟩

end Demitasse
