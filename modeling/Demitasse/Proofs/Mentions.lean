import Demitasse.Proofs.Operands
import Demitasse.Proofs.Spelling

/-! Global names in the text of a module. A global name is a mark with the letters, digits, underscores and dots behind
it; a line introduces one if it declares or defines something. Where no other name holds a mark or the end of a line,
the names that occur in the text of an instruction, a method table or a function are those that it is made of, and
the names that a module introduces are those of its tables and functions behind those of its preamble. -/

namespace Demitasse

/-- Characters of a global name behind its mark. -/
def isNameChar (c : Char) : Bool :=
  isWordChar c || c = '.'

/-- The global names that occur in a text, in order. -/
def mentions : List Char → List String
  | [] => []
  | c :: text =>
    if c = '@' then String.ofList ('@' :: text.takeWhile isNameChar) :: mentions text else mentions text

/-- The global name that a line declares or defines, which is the first one in it. -/
def introduced? (line : List Char) : Option String :=
  if "declare ".toList <+: line ∨ "define ".toList <+: line ∨ "@".toList <+: line then (mentions line).head?
  else none

/-- The global names that the lines of a text declare or define, in order. -/
def introductions (text : List Char) : List String :=
  (text.splitOn '\n').filterMap introduced?

section
variable {text rest : List Char} {c d : Char}

@[simp] theorem mentions_cons_of_ne (h : c ≠ '@') : mentions (c :: text) = mentions text :=
  if_neg h

theorem takeWhile_append_stop {p : Char → Bool} (hd : p d = false) :
    (text ++ d :: rest).takeWhile p = text.takeWhile p := by
  induction text with
  | nil => simp [hd]
  | cons c text ih =>
      rw [List.cons_append, List.takeWhile_cons, List.takeWhile_cons, ih]

/-- A character that cannot be part of a name parts the names in front of it from those behind it. -/
theorem mentions_append_cons (hd : isNameChar d = false) :
    mentions (text ++ d :: rest) = mentions text ++ mentions (d :: rest) := by
  induction text with
  | nil => rfl
  | cons c text ih =>
      rw [List.cons_append, mentions, mentions, takeWhile_append_stop hd, ih]
      split
      · rw [List.cons_append]
      · rfl

/-- The texts of which no part is a mark or the end of a line. -/
def Silent (text : List Char) : Prop :=
  '@' ∉ text ∧ '\n' ∉ text

instance : Decidable (Silent text) :=
  inferInstanceAs (Decidable (_ ∧ _))

theorem Silent.mentions_append (h : Silent text) : mentions (text ++ rest) = mentions rest := by
  induction text with
  | nil => rfl
  | cons c text ih =>
      obtain ⟨hmark, hline⟩ := h
      rw [List.mem_cons, not_or] at hmark hline
      rw [List.cons_append, mentions_cons_of_ne (Ne.symm hmark.1), ih ⟨hmark.2, hline.2⟩]

theorem Silent.mentions (h : Silent text) : mentions text = [] := by
  rw [← List.append_nil text, h.mentions_append, Demitasse.mentions]

theorem Silent.newline (h : Silent text) : '\n' ∉ text :=
  h.2

@[simp] theorem silent_nil : Silent [] :=
  ⟨List.not_mem_nil, List.not_mem_nil⟩

@[simp] theorem silent_cons : Silent (c :: text) ↔ ('@' ≠ c ∧ '\n' ≠ c) ∧ Silent text := by
  rw [Silent, List.mem_cons, List.mem_cons, not_or, not_or]
  exact and_and_and_comm

@[simp] theorem silent_append : Silent (text ++ rest) ↔ Silent text ∧ Silent rest := by
  rw [Silent, List.mem_append, List.mem_append, not_or, not_or]
  exact and_and_and_comm

theorem silent_of_forall {p : Char → Bool} (hat : p '@' = false) (hline : p '\n' = false)
    (h : ∀ c ∈ text, p c = true) : Silent text := by
  constructor
  · intro hmem
    exact absurd (h _ hmem) (by rw [hat]; exact Bool.false_ne_true)
  · intro hmem
    exact absurd (h _ hmem) (by rw [hline]; exact Bool.false_ne_true)

@[simp] theorem introductions_nil : introductions [] = [] :=
  rfl

theorem introductions_append_newline :
    introductions (text ++ '\n' :: rest) = introductions text ++ introductions rest := by
  rw [introductions, List.splitOn_append_cons_self, List.filterMap_append]
  rfl

theorem introductions_line (h : '\n' ∉ text) : introductions text = (introduced? text).toList := by
  rw [introductions, List.splitOn_eq_singleton h, List.filterMap_cons]
  cases introduced? text <;> rfl

theorem introduced?_of_silent (h : Silent text) : introduced? text = none := by
  rw [introduced?, h.mentions]
  split <;> rfl

/-- A text of whole lines. -/
def IsLines (text : List Char) : Prop :=
  text = [] ∨ ∃ line, text = line ++ ['\n']

theorem IsLines.append (h : IsLines text) (h' : IsLines rest) : IsLines (text ++ rest) := by
  rcases h' with rfl | ⟨line, rfl⟩
  · rwa [List.append_nil]
  · exact .inr ⟨text ++ line, (List.append_assoc ..).symm⟩

theorem IsLines.mentions_append (h : IsLines text) : mentions (text ++ rest) = mentions text ++ mentions rest := by
  rcases h with rfl | ⟨line, rfl⟩
  · rfl
  · rw [List.append_assoc, List.singleton_append, mentions_append_cons rfl, mentions_append_cons rfl]
    simp [mentions]

theorem IsLines.introductions_append (h : IsLines text) :
    introductions (text ++ rest) = introductions text ++ introductions rest := by
  rcases h with rfl | ⟨line, rfl⟩
  · rfl
  · rw [List.append_assoc, List.singleton_append, introductions_append_newline, introductions_append_newline,
      introductions_nil, List.append_nil]

end

/-- A text inside a line, and the global names that occur in it. -/
structure Says (text : String) (names : List String) : Prop where
  mentions : mentions text.toList = names
  newline : '\n' ∉ text.toList

/-- Whole lines, the global names that occur in them, and those that they introduce. -/
structure Shows (text : String) (names introduced : List String) : Prop where
  lines : IsLines text.toList
  mentions : mentions text.toList = names
  introductions : introductions text.toList = introduced

/-- A text that ends a name in front of it and does not hold any itself. -/
def Parts (text : String) : Prop :=
  Silent text.toList ∧ text.toList.head?.map isNameChar = some false

instance {text : String} : Decidable (Parts text) :=
  inferInstanceAs (Decidable (_ ∧ _))

section
variable {text head mark : String} {names names' introduced introduced' : List String}

namespace Says

theorem of_silent (h : Silent text.toList) : Says text [] :=
  ⟨h.mentions, h.newline⟩

theorem of_eq (h : Says text names) (heq : names = names') : Says text names' :=
  heq ▸ h

theorem behind (h : Says text names) (hhead : Silent head.toList) : Says (head ++ text) names := by
  constructor
  · rw [String.toList_append, hhead.mentions_append, h.mentions]
  · rw [String.toList_append, List.mem_append, not_or]
    exact ⟨hhead.newline, h.newline⟩

/-- What stands on both sides of a text that parts them keeps its names. -/
theorem follow (h : Says head names) (hmark : Parts mark) (h' : Says text names') :
    Says (head ++ mark ++ text) (names ++ names') := by
  obtain ⟨hsilent, hfirst⟩ := hmark
  have htext := h'.behind hsilent
  obtain ⟨c, hc, hname⟩ := Option.map_eq_some_iff.mp hfirst
  obtain ⟨rest, hmark⟩ := List.head?_eq_some_iff.mp hc
  constructor
  · have hmentions := htext.mentions
    rw [String.toList_append, hmark, List.cons_append] at hmentions
    rw [String.append_assoc, String.toList_append, String.toList_append, hmark, List.cons_append,
      mentions_append_cons hname, h.mentions, hmentions]
  · rw [String.append_assoc, String.toList_append, List.mem_append, not_or]
    exact ⟨h.newline, htext.newline⟩

theorem follow_silent (h : Says head names) (hmark : Parts mark) (htext : Silent text.toList) :
    Says (head ++ mark ++ text) names := by
  have hall := h.follow hmark (of_silent htext)
  rwa [List.append_nil] at hall

theorem close (h : Says head names) (hmark : Parts mark) : Says (head ++ mark) names := by
  have hall : Says (head ++ mark ++ "") names := h.follow_silent hmark (by decide)
  rwa [String.append_empty] at hall

end Says

namespace Shows

theorem line (h : Says text names) : Shows (text ++ "\n") names (introduced? text.toList).toList := by
  have htext : (text ++ "\n").toList = text.toList ++ '\n' :: [] := by simp
  refine ⟨.inr ⟨_, htext⟩, ?_, ?_⟩
  · rw [htext, mentions_append_cons rfl, h.mentions]
    simp [Demitasse.mentions]
  · rw [htext, introductions_append_newline, introductions_line h.newline, introductions_nil, List.append_nil]

theorem introduction {name : String} (h : Says text (name :: names))
    (hstart : "declare ".toList <+: text.toList ∨ "define ".toList <+: text.toList ∨ "@".toList <+: text.toList) :
    Shows (text ++ "\n") (name :: names) [name] := by
  have hline := line h
  rw [introduced?, if_pos hstart, h.mentions] at hline
  exact hline

theorem append (h : Shows head names introduced) (h' : Shows text names' introduced') :
    Shows (head ++ text) (names ++ names') (introduced ++ introduced') := by
  constructor
  · rw [String.toList_append]
    exact h.lines.append h'.lines
  · rw [String.toList_append, h.lines.mentions_append, h.mentions, h'.mentions]
  · rw [String.toList_append, h.lines.introductions_append, h.introductions, h'.introductions]

theorem newline : Shows "\n" [] [] :=
  line (⟨rfl, by simp⟩ : Says "" [])

theorem join {α : Type} {render : α → String} {names introduced : α → List String} {l : List α}
    (h : ∀ a ∈ l, Shows (render a) (names a) (introduced a)) :
    Shows (String.join (l.map render)) (l.flatMap names) (l.flatMap introduced) := by
  induction l with
  | nil => exact ⟨.inl rfl, rfl, rfl⟩
  | cons a l ih =>
      obtain ⟨ha, hl⟩ := List.forall_mem_cons.mp h
      rw [List.map_cons, String.join_cons, List.flatMap_cons, List.flatMap_cons]
      exact ha.append (ih hl)

end Shows

end

theorem commas_cons_cons (item item' : String) (items : List String) :
    Written.commas (item :: item' :: items) = item ++ ", " ++ Written.commas (item' :: items) :=
  String.intercalate_cons_cons

theorem says_commas {α : Type} {text : α → String} {names : α → List String} {l : List α}
    (h : ∀ a ∈ l, Says (text a) (names a)) : Says (Written.commas (l.map text)) (l.flatMap names) := by
  induction l with
  | nil => exact .of_silent silent_nil
  | cons a l ih =>
      obtain ⟨ha, hl⟩ := List.forall_mem_cons.mp h
      cases l with
      | nil =>
          rw [List.flatMap_singleton]
          exact ha
      | cons b l =>
          rw [List.map_cons, List.map_cons, commas_cons_cons, List.flatMap_cons]
          exact ha.follow (by decide) (ih hl)

theorem silent_commas {items : List String} (h : ∀ item ∈ items, Silent item.toList) :
    Silent (Written.commas items).toList := by
  induction items with
  | nil => exact silent_nil
  | cons item items ih =>
      obtain ⟨hitem, hitems⟩ := List.forall_mem_cons.mp h
      cases items with
      | nil => exact hitem
      | cons item' items =>
          rw [commas_cons_cons]
          simp [hitem, ih hitems]

@[simp] theorem silent_toString (n : Nat) : Silent (toString n).toList :=
  silent_of_forall (p := Char.isDigit) (by decide) (by decide) fun _ hc => isDigit_of_mem_toString hc

@[simp] theorem IrTy.silent_text (ty : IrTy) : Silent ty.text.toList := by
  induction ty with
  | ptr elem ih => simp [text, ih]
  | array len elem ih =>
      have hlen := silent_toString len
      rw [text, String.toList_append, String.toList_append, String.toList_append, String.toList_append]
      simp only [silent_append, hlen, ih]
      simp
  | _ => simp [text]

@[simp] theorem FnTy.silent_pointerText (ty : FnTy) : Silent ty.pointerText.toList := by
  have hparams : Silent (", ".intercalate (ty.params.map IrTy.text)).toList :=
    silent_commas (List.forall_mem_map.mpr fun param _ => param.silent_text)
  rw [pointerText, text, String.toList_append, String.toList_append, String.toList_append, String.toList_append]
  simp only [silent_append, hparams, ty.ret.silent_text]
  simp

@[simp] theorem ArithOp.silent_mnemonic (op : ArithOp) : Silent op.mnemonic.toList := by
  cases op <;> simp [mnemonic]

@[simp] theorem Comparison.silent_mnemonic (cmp : Comparison) : Silent cmp.mnemonic.toList := by
  cases cmp <;> simp [mnemonic]

@[simp] theorem silent_paramTypes (tys : List IrTy) : Silent (Written.commas (tys.map IrTy.text)).toList :=
  silent_commas (List.forall_mem_map.mpr fun ty _ => ty.silent_text)

@[simp] theorem silent_variadicParams (fixed : List IrTy) : Silent (variadicParams fixed).toList := by
  refine silent_commas (List.forall_mem_append.mpr ⟨?_, List.forall_mem_singleton.mpr (by simp)⟩)
  exact List.forall_mem_map.mpr fun ty _ => ty.silent_text

@[simp] theorem CalleeTy.silent_text (ty : CalleeTy) : Silent ty.text.toList := by
  cases ty with
  | returns ty => exact ty.silent_text
  | variadic ty fixed => simp [text]

/-- A temporary, or a register whose name is made of characters of names and is not that of a temporary. -/
def Reg.Legible : Reg → Prop
  | .temp _ => True
  | .named name => (∀ c ∈ name.toList, isNameChar c = true) ∧ ∀ n : Nat, name.toList ≠ '_' :: (toString n).toList

@[simp] theorem Reg.legible_temp (n : Nat) : (temp n).Legible :=
  trivial

theorem Reg.Legible.silent {r : Reg} (h : r.Legible) : Silent r.text.toList := by
  cases r with
  | temp n =>
      rw [toList_text_temp, silent_cons, silent_cons]
      exact ⟨by decide, by decide, silent_toString n⟩
  | named name =>
      rw [toList_text_named, silent_cons]
      exact ⟨by decide, silent_of_forall (by decide) (by decide) h.1⟩

/-- A label whose stem is made of characters of names. -/
def Label.Legible (l : Label) : Prop :=
  ∀ c ∈ l.stem.toList, isNameChar c = true

theorem Label.Legible.silent {l : Label} (h : l.Legible) : Silent l.text.toList := by
  rw [toList_text, silent_append, silent_cons]
  exact ⟨silent_of_forall (by decide) (by decide) h, by decide, silent_toString l.index⟩

/-- A mark and characters of names. -/
def IsGlobalName (name : String) : Prop :=
  ∃ word, name.toList = '@' :: word ∧ ∀ c ∈ word, isNameChar c = true

theorem IsGlobalName.says_self {name : String} (h : IsGlobalName name) : Says name [name] := by
  obtain ⟨word, hname, hword⟩ := h
  have hsilent : Silent word := silent_of_forall (by decide) (by decide) hword
  have hrun : (word ++ []).takeWhile isNameChar = word ++ [] := List.takeWhile_append_of_pos hword
  rw [List.append_nil] at hrun
  constructor
  · rw [hname, mentions, if_pos rfl, hrun, hsilent.mentions, ← hname, String.ofList_toList]
  · rw [hname, List.mem_cons, not_or]
    exact ⟨by decide, hsilent.newline⟩

namespace Operand

/-- The global names of an operand. -/
def mentions : Operand → List String
  | .global name => [name]
  | .reg _ | .const _ => []

/-- Registers are legible, and global names are what they look like. -/
def Clean : Operand → Prop
  | .reg r => r.Legible
  | .const _ => True
  | .global name => IsGlobalName name

@[simp] theorem clean_reg {r : Reg} : (reg r).Clean ↔ r.Legible :=
  Iff.rfl

theorem clean_temp (n : Nat) : (reg (.temp n)).Clean :=
  trivial

@[simp] theorem clean_const (n : Nat) : (const n).Clean :=
  trivial

@[simp] theorem clean_global {name : String} : (global name).Clean ↔ IsGlobalName name :=
  Iff.rfl

theorem Clean.says_text {o : Operand} (h : o.Clean) : Says o.text o.mentions := by
  cases o with
  | reg r => exact .of_silent (Reg.Legible.silent h)
  | const n => exact .of_silent (silent_toString n)
  | global name => exact IsGlobalName.says_self h

end Operand

/-! ### Instructions -/

namespace Instr

/-- The global names of an instruction. -/
def mentions (i : Instr) : List String :=
  i.operands.flatMap fun u => u.1.mentions

/-- The parts of an instruction hold neither marks nor ends of lines besides those of global names. An address is
reached by some index, a choice has something to choose from, and only calls that return something have a result. -/
def Clean : Instr → Prop
  | .arith result _ _ lhs rhs | .compare result _ _ lhs rhs => result.Legible ∧ lhs.Clean ∧ rhs.Clean
  | .alloca result _ => result.Legible
  | .load result _ ptr => result.Legible ∧ ptr.Clean
  | .store _ value ptr => value.Clean ∧ ptr.Clean
  | .elementPtr result _ ptr indices => result.Legible ∧ ptr.Clean ∧ indices ≠ [] ∧ ∀ o ∈ indices, o.Clean
  | .bitcast result _ value _ | .methodCast result value _ => result.Legible ∧ value.Clean
  | .call result ty callee args =>
    (∀ r, result = some r → r.Legible ∧ ty.ret ≠ .void) ∧ callee.Clean ∧ ∀ arg ∈ args, arg.2.Clean
  | .phi result _ incoming =>
    result.Legible ∧ incoming ≠ [] ∧ ∀ v ∈ incoming, v.1.Clean ∧ v.2.Legible
  | .branch target => target.Legible
  | .branchIf cond ifTrue ifFalse => cond.Clean ∧ ifTrue.Legible ∧ ifFalse.Legible
  | .ret _ value => value.Clean
  | .retVoid => True

/-- The text of an instruction is a line, whose global names are those of the operands. -/
theorem exists_says {i : Instr} (h : i.Clean) :
    ∃ text, i.render = Written.instruction text ∧ Says text i.mentions := by
  cases i with
  | arith result op ty lhs rhs =>
      obtain ⟨hresult, hlhs, hrhs⟩ := h
      exact ⟨_, rfl, Says.of_silent hresult.silent
        |>.follow_silent (by decide) op.silent_mnemonic
        |>.follow_silent (by decide) ty.silent_text
        |>.follow (by decide) hlhs.says_text
        |>.follow (by decide) hrhs.says_text
        |>.of_eq (by simp [mentions, operands])⟩
  | compare result cmp ty lhs rhs =>
      obtain ⟨hresult, hlhs, hrhs⟩ := h
      exact ⟨_, rfl, Says.of_silent hresult.silent
        |>.follow_silent (by decide) cmp.silent_mnemonic
        |>.follow_silent (by decide) ty.silent_text
        |>.follow (by decide) hlhs.says_text
        |>.follow (by decide) hrhs.says_text
        |>.of_eq (by simp [mentions, operands])⟩
  | alloca result ty =>
      have hresult : result.Legible := h
      exact ⟨_, rfl, (Says.of_silent hresult.silent).follow_silent (by decide) ty.silent_text⟩
  | load result ty ptr =>
      obtain ⟨hresult, hptr⟩ := h
      exact ⟨_, rfl, Says.of_silent hresult.silent
        |>.follow_silent (by decide) ty.silent_text
        |>.follow_silent (by decide) ty.silent_text
        |>.follow (by decide) hptr.says_text
        |>.of_eq (by simp [mentions, operands])⟩
  | store ty value ptr =>
      obtain ⟨hvalue, hptr⟩ := h
      exact ⟨_, rfl, Says.of_silent ty.silent_text
        |>.behind (by decide)
        |>.follow (by decide) hvalue.says_text
        |>.follow_silent (by decide) ty.silent_text
        |>.follow (by decide) hptr.says_text
        |>.of_eq (by simp [mentions, operands])⟩
  | elementPtr result elem ptr indices =>
      obtain ⟨hresult, hptr, _, hindices⟩ := h
      have hitems : Says (Written.commas ((indices.map Operand.text).map ("i32 " ++ ·)))
          (indices.flatMap Operand.mentions) := by
        rw [List.map_map]
        exact says_commas fun o ho => (hindices o ho).says_text.behind (by decide)
      exact ⟨_, rfl, Says.of_silent hresult.silent
        |>.follow_silent (by decide) elem.silent_text
        |>.follow_silent (by decide) elem.silent_text
        |>.follow (by decide) hptr.says_text
        |>.follow (by decide) hitems
        |>.of_eq (by simp [mentions, operands, List.flatMap_map])⟩
  | bitcast result source value target =>
      obtain ⟨hresult, hvalue⟩ := h
      exact ⟨_, rfl, Says.of_silent hresult.silent
        |>.follow_silent (by decide) source.silent_text
        |>.follow (by decide) hvalue.says_text
        |>.follow_silent (by decide) target.silent_text
        |>.of_eq (by simp [mentions, operands])⟩
  | methodCast result value target =>
      obtain ⟨hresult, hvalue⟩ := h
      exact ⟨_, rfl, Says.of_silent hresult.silent
        |>.follow_silent (by decide) (IrTy.silent_text _)
        |>.follow (by decide) hvalue.says_text
        |>.follow_silent (by decide) target.silent_pointerText
        |>.of_eq (by simp [mentions, operands])⟩
  | call result ty callee args =>
      obtain ⟨hresult, hcallee, hargs⟩ := h
      have hitems : Says (Written.commas ((args.map fun arg => (arg.1, arg.2.text)).map fun arg =>
          arg.1.text ++ " " ++ arg.2)) (args.flatMap fun arg => arg.2.mentions) := by
        rw [List.map_map]
        exact says_commas fun arg harg =>
          (Says.of_silent arg.1.silent_text).follow (by decide) (hargs arg harg).says_text
      have hcall : Says _ (call result ty callee args).mentions := Says.of_silent ty.silent_text
        |>.behind (by decide : Silent "call ".toList)
        |>.follow (by decide : Parts " ") hcallee.says_text
        |>.follow (by decide : Parts "(") hitems
        |>.close (by decide : Parts ")")
        |>.of_eq (by simp [mentions, operands, List.flatMap_map])
      cases result with
      | none => exact ⟨_, rfl, hcall⟩
      | some r =>
          by_cases hvoid : ty.text = "void"
          · exact ⟨_, if_pos hvoid, hcall⟩
          · exact ⟨_, if_neg hvoid, (Says.of_silent (hresult r rfl).1.silent).follow (by decide) hcall⟩
  | phi result ty incoming =>
      obtain ⟨hresult, _, hincoming⟩ := h
      have hitems : Says (Written.commas ((incoming.map fun v => (v.1.text, v.2.text)).map fun v =>
          "[" ++ v.1 ++ ", %" ++ v.2 ++ "]")) (incoming.flatMap fun v => v.1.mentions) := by
        rw [List.map_map]
        refine says_commas fun v hv => ?_
        obtain ⟨hvalue, hlabel⟩ := hincoming v hv
        exact ((hvalue.says_text.behind (by decide)).follow_silent (by decide) hlabel.silent).close (by decide)
      exact ⟨_, rfl, Says.of_silent hresult.silent
        |>.follow_silent (by decide) ty.silent_text
        |>.follow (by decide) hitems
        |>.of_eq (by simp [mentions, operands, List.flatMap_map])⟩
  | branch target =>
      have htarget : target.Legible := h
      exact ⟨_, rfl, (Says.of_silent htarget.silent).behind (by decide)⟩
  | branchIf cond ifTrue ifFalse =>
      obtain ⟨hcond, htrue, hfalse⟩ := h
      exact ⟨_, rfl, hcond.says_text.behind (by decide)
        |>.follow_silent (by decide) htrue.silent
        |>.follow_silent (by decide) hfalse.silent
        |>.of_eq (by simp [mentions, operands])⟩
  | ret ty value =>
      have hvalue : value.Clean := h
      exact ⟨_, rfl, Says.of_silent ty.silent_text
        |>.behind (by decide)
        |>.follow (by decide) hvalue.says_text
        |>.of_eq (by simp [mentions, operands])⟩
  | retVoid => exact ⟨_, rfl, .of_silent (by decide)⟩

/-- An instruction is indented, so it introduces nothing. -/
theorem shows {i : Instr} (h : i.Clean) : Shows i.render i.mentions [] := by
  obtain ⟨text, hrender, htext⟩ := exists_says h
  have hindented : introduced? ("\t" ++ text).toList = none := by
    rw [String.toList_append]
    rfl
  have hline := Shows.line (htext.behind (by simp : Silent "\t".toList))
  rw [hindented] at hline
  rw [hrender]
  exact hline

end Instr

def Line.Clean : Line → Prop
  | .label l => l.Legible
  | .instr i => i.Clean

def Line.mentions : Line → List String
  | .label _ => []
  | .instr i => i.mentions

def Code.Clean (c : Code) : Prop :=
  ∀ line ∈ c, line.Clean

namespace Code

variable {l : Label} {i : Instr} {c d : Code}

@[simp] theorem clean_nil : Clean [] :=
  List.forall_mem_nil _

@[simp] theorem clean_label : Clean (.label l :: c) ↔ l.Legible ∧ c.Clean :=
  List.forall_mem_cons

@[simp] theorem clean_instr : Clean (.instr i :: c) ↔ i.Clean ∧ c.Clean :=
  List.forall_mem_cons

@[simp] theorem clean_append : Clean (c ++ d) ↔ c.Clean ∧ d.Clean :=
  List.forall_mem_append

end Code

theorem Line.shows {line : Line} (h : line.Clean) : Shows line.render line.mentions [] := by
  cases line with
  | label l =>
      have htext : Silent l.text.toList := Label.Legible.silent h
      have hlabel : Silent (l.text ++ ":").toList := by simp [htext]
      have hline := Shows.line (.of_silent hlabel)
      rw [introduced?_of_silent hlabel, String.append_assoc] at hline
      exact hline
  | instr i => exact Instr.shows h

theorem FnSig.shows_definition {sig : FnSig} (hname : IsGlobalName sig.name)
    (hparams : ∀ p ∈ sig.params, ∀ c ∈ p.2.toList, isNameChar c = true) :
    Shows (Written.definition sig) [sig.name] [sig.name] := by
  have hitems : Silent (Written.commas (sig.params.map fun p => p.1.text ++ " %" ++ p.2)).toList := by
    refine silent_commas (List.forall_mem_map.mpr fun p hp => ?_)
    have hp : Silent p.2.toList := silent_of_forall (by decide) (by decide) (hparams p hp)
    simp [hp]
  have htext : Says ("define " ++ sig.ret.text ++ " " ++ sig.name ++ "("
      ++ Written.commas (sig.params.map fun p => p.1.text ++ " %" ++ p.2) ++ ") \x7b") [sig.name] :=
    Says.of_silent sig.ret.silent_text
      |>.behind (by decide)
      |>.follow (by decide) hname.says_self
      |>.follow_silent (by decide) hitems
      |>.close (by decide)
  have hline := Shows.introduction htext (by simp)
  rw [String.append_assoc] at hline
  exact hline

/-- The names in a table entry are those of the method, since types have none. -/
theorem FnSig.says_tableEntry {sig : FnSig} (hname : IsGlobalName sig.name) : Says sig.tableEntry [sig.name] :=
  Says.of_silent sig.ty.silent_pointerText
    |>.behind (by decide)
    |>.follow (by decide) hname.says_self
    |>.close (by decide)

structure IrFunction.Clean (f : IrFunction) : Prop where
  name : IsGlobalName f.sig.name
  params : ∀ p ∈ f.sig.params, ∀ c ∈ p.2.toList, isNameChar c = true
  code : f.code.Clean

/-- The text of a function introduces the function. -/
theorem IrFunction.Clean.shows {f : IrFunction} (h : f.Clean) :
    Shows f.render (f.sig.name :: f.code.flatMap Line.mentions) [f.sig.name] := by
  have hcode := Shows.join fun line hline => Line.shows (h.code line hline)
  have hend : Shows Written.definitionEnd [] [] := ⟨.inr ⟨['\x7d'], rfl⟩, rfl, rfl⟩
  rw [List.flatMap_eq_nil_iff.mpr fun _ _ => rfl] at hcode
  have hall := ((FnSig.shows_definition h.name h.params).append hcode).append hend
  rwa [List.append_nil] at hall

structure MethodTable.Clean (t : MethodTable) : Prop where
  name : IsGlobalName t.name
  entries : ∀ s ∈ t.entries, IsGlobalName s.name

/-- The text of a method table introduces the table. -/
theorem MethodTable.Clean.shows {t : MethodTable} (h : t.Clean) :
    Shows t.render (t.name :: t.entries.map (·.name)) [t.name] := by
  have hitems := says_commas fun s hs => FnSig.says_tableEntry (h.entries s hs)
  rw [← List.map_eq_flatMap] at hitems
  have htext : Says (t.name ++ " = global " ++ (IrTy.array (t.entries.map FnSig.tableEntry).length .address).text
      ++ " [" ++ Written.commas (t.entries.map FnSig.tableEntry) ++ "]") (t.name :: t.entries.map (·.name)) :=
    h.name.says_self.follow_silent (by decide) (IrTy.silent_text _)
      |>.follow (by decide) hitems
      |>.close (by decide)
  obtain ⟨word, hname, _⟩ := h.name
  have hline := Shows.introduction htext (by simp [hname])
  rw [String.append_assoc] at hline
  exact hline

/-! ### Modules -/

/-- The names that stand in front of every module. -/
def runtimeNames : List String :=
  ["@calloc", "@printf", "@exit", "@_cint", "@_cOOB", "@print_int", "@throw_oob"]

theorem isGlobalName_of_mem_runtimeNames : ∀ name ∈ runtimeNames, IsGlobalName name := by
  have hname : ∀ word : String, word.toList.all isNameChar = true → IsGlobalName ("@" ++ word) :=
    fun word hword => ⟨word.toList, by simp, List.all_eq_true.mp hword⟩
  simp only [runtimeNames, List.forall_mem_cons]
  exact ⟨hname "calloc" (by decide), hname "printf" (by decide), hname "exit" (by decide), hname "_cint" (by decide),
    hname "_cOOB" (by decide), hname "print_int" (by decide), hname "throw_oob" (by decide), List.forall_mem_nil _⟩

theorem External.shows {e : External} (hname : IsGlobalName e.name) : Shows e.render [e.name] [e.name] := by
  have hparams : Silent (if e.isVariadic then variadicParams e.params
      else Written.commas (e.params.map IrTy.text)).toList := by
    split
    · exact silent_variadicParams e.params
    · exact silent_paramTypes e.params
  rw [render]
  generalize (if e.isVariadic then variadicParams e.params else _) = params at hparams ⊢
  have htext : Says ("declare " ++ e.ret.text ++ " " ++ e.name ++ "(" ++ params ++ ")") [e.name] :=
    Says.of_silent e.ret.silent_text
      |>.behind (by decide)
      |>.follow (by decide) hname.says_self
      |>.follow_silent (by decide) hparams
      |>.close (by decide)
  have hline := Shows.introduction htext (by simp)
  rw [String.append_assoc] at hline
  exact hline

theorem StringConstant.shows {s : StringConstant} (hname : IsGlobalName s.name)
    (hbytes : Silent (String.join (s.text.toUTF8.data.toList.map Written.stringByte)).toList) :
    Shows s.render [s.name] [s.name] := by
  rw [render, Written.stringConstant]
  generalize String.join (s.text.toUTF8.data.toList.map Written.stringByte) = bytes at hbytes ⊢
  have htext : Says (s.name ++ " = constant " ++ s.ty.text ++ " c\"" ++ bytes ++ "\\00\"") [s.name] :=
    hname.says_self.follow_silent (by decide) s.ty.silent_text
      |>.follow_silent (by decide) hbytes
      |>.close (by decide)
  obtain ⟨word, hword, _⟩ := hname
  have hline := Shows.introduction htext (by simp [hword])
  rw [String.append_assoc] at hline
  exact hline

theorem clean_printText {text : StringConstant} (htext : IsGlobalName text.name) {args : List (IrTy × Operand)}
    (hargs : ∀ arg ∈ args, arg.2.Clean) : (printText text args).Clean := by
  have hprintf : IsGlobalName printf.name := isGlobalName_of_mem_runtimeNames _ (by decide)
  have hstr : Reg.Legible (.named "_str") := by
    refine ⟨List.all_eq_true.mp rfl, fun n hn => ?_⟩
    have hmem : 's' ∈ (toString n).toList := (List.cons.inj hn).2 ▸ List.mem_cons_self
    exact absurd (isDigit_of_mem_toString hmem) (by decide)
  refine List.forall_mem_cons.mpr ⟨⟨hstr, htext⟩, List.forall_mem_singleton.mpr ⟨nofun, hprintf, ?_⟩⟩
  exact List.forall_mem_cons.mpr ⟨hstr, hargs⟩

theorem helpers_clean : ∀ f ∈ preamble.helpers, f.Clean := by
  have hname := isGlobalName_of_mem_runtimeNames
  simp only [preamble, List.forall_mem_cons]
  refine ⟨⟨hname _ (by decide), List.forall_mem_singleton.mpr (List.all_eq_true.mp rfl), ?_⟩,
    ⟨hname _ (by decide), List.forall_mem_nil _, ?_⟩, List.forall_mem_nil _⟩
  · have harg : Operand.Clean (.reg (.named "i")) := ⟨List.all_eq_true.mp rfl, fun n hn => by cases hn⟩
    have htext : (printText numberFormat [(.i32, .reg (.named "i"))]).Clean :=
      clean_printText (hname _ (by decide)) (List.forall_mem_singleton.mpr harg)
    exact Code.clean_append.mpr ⟨htext, List.forall_mem_singleton.mpr trivial⟩
  · have htext := clean_printText (hname outOfBoundsText.name (by decide)) (List.forall_mem_nil _)
    have hexit : Instr.Clean (.call none (.returns exit.ret) (.global exit.name) [(.i32, .const 1)]) :=
      ⟨nofun, hname _ (by decide), List.forall_mem_singleton.mpr trivial⟩
    exact Code.clean_append.mpr ⟨htext, Code.clean_instr.mpr ⟨hexit, List.forall_mem_singleton.mpr trivial⟩⟩

theorem shows_preamble : ∃ names, names ⊆ runtimeNames ∧ Shows preamble.render names runtimeNames := by
  -- Line by line: to evaluate the text as a whole takes more than a minute.
  have hname := isGlobalName_of_mem_runtimeNames
  have hexternals : ∀ e ∈ preamble.externals, e.name ∈ runtimeNames := by decide
  have hstrings : ∀ s ∈ preamble.strings, s.name ∈ runtimeNames ∧
      Silent (String.join (s.text.toUTF8.data.toList.map Written.stringByte)).toList := by decide +kernel
  have hdeclarations := Shows.join fun e he => External.shows (hname _ (hexternals e he))
  have htexts := Shows.join fun s hs => StringConstant.shows (hname _ (hstrings s hs).1) (hstrings s hs).2
  have hprint := (helpers_clean printInt (by simp [preamble])).shows
  have hthrow := (helpers_clean throwOutOfBounds (by simp [preamble])).shows
  have hall := (((hdeclarations.append .newline).append htexts).append .newline).append
    ((hprint.append .newline).append hthrow)
  rw [Preamble.render, show "\n".intercalate (preamble.helpers.map IrFunction.render) =
    printInt.render ++ "\n" ++ throwOutOfBounds.render by simp [preamble, String.intercalate_cons_cons]]
  exact ⟨_, by decide, hall⟩

/-- A module introduces the names of its preamble, of its tables and of its functions, in this order. -/
theorem IrModule.exists_shows {M : IrModule} (hpreamble : M.preamble = Demitasse.preamble)
    (htables : ∀ t ∈ M.tables, t.Clean) (hfunctions : ∀ f ∈ M.functions, f.Clean) : ∃ names, names ⊆ runtimeNames ∧
      Shows M.render (names ++ M.tables.flatMap (fun t => t.name :: t.entries.map (·.name))
          ++ M.functions.flatMap fun f => f.sig.name :: f.code.flatMap Line.mentions)
        (runtimeNames ++ M.tables.map (·.name) ++ M.functions.map (·.sig.name)) := by
  obtain ⟨names, hsub, hstart⟩ := shows_preamble
  have htexts := Shows.join fun t ht => (htables t ht).shows
  have hcodes : Shows (String.join (M.functions.map fun f => f.render ++ "\n")) _ _ :=
    Shows.join fun f hf => (hfunctions f hf).shows.append .newline
  have hall := (((hstart.append .newline).append htexts).append .newline).append hcodes
  simp only [List.append_nil, ← List.map_eq_flatMap] at hall
  refine ⟨names, hsub, ?_⟩
  rw [IrModule.render, hpreamble]
  exact hall

end Demitasse
