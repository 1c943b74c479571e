import Mathlib.Data.List.Nodup
import Demitasse.Proofs.SingleAssignment

/-! The names that a function is given. Temporaries, labels and addresses of variables are asked for in any order.
The address of a variable is the same whenever it is asked for and is named by what was said first. Whatever is
asked, names of one kind do not repeat, and the text of a name shows what kind of name it is. -/

namespace Demitasse

theorem Reg.shown_param (name : String) : (param name).Shown := by
  rw [param, Shown, String.toList_append]
  simp

/-- A text whose first character is a letter. -/
def StartsWithLetter (text : String) : Prop :=
  ∃ c cs, text.toList = c :: cs ∧ c.isAlpha = true

namespace Label

/-- A label as it is written in front of its block and, with the mark of registers, as the target of a branch. -/
def texts (l : Label) : List String :=
  [l.text, "%" ++ l.text]

theorem text_not_mem_texts {r : Reg} (h : r.Clear) (l : Label) : r.text ∉ l.texts := by
  rw [texts, List.mem_cons, List.mem_singleton, not_or]
  exact ⟨r.text_ne_bare_label h l, r.text_ne_label h l⟩

/-- The first character tells a label from a parameter, whatever the parameter's name is. -/
theorem text_param_not_mem_texts {l : Label} (h : StartsWithLetter l.stem) (name : String) :
    (Reg.param name).text ∉ l.texts := by
  obtain ⟨c, cs, hstem, hc⟩ := h
  have hparam : (Reg.param name).text.toList = '%' :: '.' :: name.toList := by
    rw [Reg.param, Reg.toList_text_named, String.toList_append]
    rfl
  rw [texts, List.mem_cons, List.mem_singleton, not_or]
  constructor
  · intro heq
    have hlist := hparam.symm.trans ((congrArg String.toList heq).trans l.toList_text)
    rw [hstem, List.cons_append, List.cons.injEq] at hlist
    rw [← hlist.1] at hc
    exact absurd hc (by decide)
  · intro heq
    have hlist := hparam.symm.trans (congrArg String.toList heq)
    rw [String.toList_append, toList_text, hstem] at hlist
    obtain rfl : '.' = c := (List.cons.inj (List.cons.inj hlist).2).1
    exact absurd hc (by decide)

end Label

/-- What can be asked of the names of a function. -/
inductive NameCall where
  | temp
  | label (stem : String)
  | slot (name : String) (decl : NodeId)
deriving DecidableEq

/-- Names in the order in which they were given, by kind. The address of a variable stands with the declaration
that it was given for. -/
structure Issued where
  temps : List Reg
  labels : List Label
  slots : List (NodeId × Reg)

namespace NameCall

/-- The stem of a label that is asked for. -/
def stem? : NameCall → Option String
  | .label stem => some stem
  | _ => none

/-- The name that is said for the variable of a declaration. -/
def nameFor? (decl : NodeId) : NameCall → Option String
  | .slot name d => if d = decl then some name else none
  | _ => none

/-- The name that is said first for the variable of a declaration. -/
def firstName? (decl : NodeId) (calls : List NameCall) : Option String :=
  calls.findSome? (nameFor? decl)

/-- The names of a function after a call. -/
def after (names : Names) : NameCall → Names
  | .temp => names.newTemp.2
  | .label stem => (names.newLabel stem).2
  | .slot name decl => (names.slot name decl).2

/-- Puts what a call returns in front of what later calls return. -/
def record (names : Names) (later : Issued) : NameCall → Issued
  | .temp => { later with temps := names.newTemp.1 :: later.temps }
  | .label stem => { later with labels := (names.newLabel stem).1 :: later.labels }
  | .slot name decl => { later with slots := (decl, (names.slot name decl).1) :: later.slots }

/-- What calls return, one after the other. -/
def issue (names : Names) : List NameCall → Issued
  | [] => ⟨[], [], []⟩
  | call :: rest => call.record names (issue (call.after names) rest)

end NameCall

namespace Names

variable (names : Names) (name : String) (decl : NodeId)

theorem nextTemp_slot : (names.slot name decl).2.nextTemp = names.nextTemp :=
  congrArg Point.nextTemp (names.point_slot name decl [])

theorem nextLabel_slot : (names.slot name decl).2.nextLabel = names.nextLabel :=
  congrArg Point.nextLabel (names.point_slot name decl [])

/-- An address that is asked for is there afterwards, and all that were there stay as they are, also if another
name is said for one of them. -/
theorem lookup_slot (d : NodeId) :
    (names.slot name decl).2.slots.lookup d =
      (names.slots.lookup d).or (if decl = d then some (.named name) else none) := by
  cases h : names.slots.lookup decl with
  | some r =>
      rw [slot_of_lookup h]
      split_ifs with heq
      · rw [← heq, h]
        rfl
      · rw [Option.or_none]
  | none =>
      rw [slot, h]
      split_ifs with heq
      · rw [← heq, h, List.lookup_cons_self]
        rfl
      · have hne : (d == decl) = false := beq_false_of_ne (Ne.symm heq)
        rw [List.lookup_cons, hne, Option.or_none]

theorem lookup_slot_self : (names.slot name decl).2.slots.lookup decl = some (names.slot name decl).1 := by
  rw [slot]
  split
  · assumption
  · exact List.lookup_cons_self

end Names

namespace NameCall

/-- The temporaries are numbered in the order of the calls. -/
theorem temps_issue (names : Names) (calls : List NameCall) :
    (issue names calls).temps = (List.range' names.nextTemp (calls.count .temp)).map .temp := by
  induction calls generalizing names with
  | nil => rfl
  | cons call rest ih =>
      cases call with
      | temp =>
          rw [issue, record, ih, List.count_cons_self, List.range'_succ]
          rfl
      | label stem =>
          rw [issue, record, ih, List.count_cons_of_ne (fun h => NameCall.noConfusion h)]
          rfl
      | slot name decl =>
          rw [issue, record, ih, List.count_cons_of_ne (fun h => NameCall.noConfusion h), after,
            Names.nextTemp_slot]

/-- The labels have the stems that were asked for and are numbered in the order of the calls, all in one row. -/
theorem labels_issue (names : Names) (calls : List NameCall) :
    (issue names calls).labels =
      ((calls.filterMap stem?).zipIdx names.nextLabel).map fun e => ⟨e.1, e.2⟩ := by
  induction calls generalizing names with
  | nil => rfl
  | cons call rest ih =>
      cases call with
      | temp =>
          rw [issue, record, ih]
          rfl
      | label stem =>
          rw [issue, record, ih]
          rfl
      | slot name decl =>
          rw [issue, record, ih, after, Names.nextLabel_slot]
          rfl

theorem nodup_temps (names : Names) (calls : List NameCall) : ((issue names calls).temps.map Reg.text).Nodup := by
  rw [temps_issue, List.map_map]
  apply (List.nodup_range' 1).map
  intro m n heq
  exact Reg.temp.inj (Reg.text_inj trivial trivial heq)

theorem nodup_labels (names : Names) (calls : List NameCall) :
    ((issue names calls).labels.map Label.text).Nodup := by
  apply Label.nodup_text
  have hindices : (issue names calls).labels.map Label.index =
      List.range' names.nextLabel (calls.filterMap stem?).length := by
    rw [labels_issue, List.map_map, ← List.zipIdx_map_snd]
    rfl
  rw [hindices]
  exact List.nodup_range' 1

/-- The register that the variable of a declaration has, or that calls in a row are going to give it. -/
def register? (names : Names) (calls : List NameCall) (decl : NodeId) : Option Reg :=
  (names.slots.lookup decl).or ((firstName? decl calls).map .named)

/-- A call makes no difference to that: it does what was to come. -/
theorem register?_after (names : Names) (call : NameCall) (rest : List NameCall) (decl : NodeId) :
    register? (call.after names) rest decl = register? names (call :: rest) decl := by
  cases call with
  | temp => rfl
  | label stem => rfl
  | slot name d =>
      rw [register?, after, Names.lookup_slot, register?, firstName?, firstName?, List.findSome?_cons, nameFor?,
        Option.or_assoc]
      split_ifs <;> rfl

/-- Whenever the address of a variable is asked for, it is the one that is named by what was said first. -/
theorem register?_of_mem_slots {names : Names} {calls : List NameCall} {decl : NodeId} {r : Reg}
    (h : (decl, r) ∈ (issue names calls).slots) : register? names calls decl = some r := by
  -- What the first call brings about is part of the names at which the hypothesis is used.
  induction calls generalizing names with
  | nil => cases h
  | cons call rest ih =>
      rw [← register?_after]
      rw [issue] at h
      cases call with
      | temp => exact ih h
      | label stem => exact ih h
      | slot name d =>
          rcases List.mem_cons.mp h with heq | hrest
          · obtain ⟨rfl, rfl⟩ := Prod.mk.inj heq
            rw [register?, after, Names.lookup_slot_self]
            rfl
          · exact ih hrest

/-- In the names of a function without code, the register of a variable is named by what was said first. -/
theorem exists_firstName {calls : List NameCall} {decl : NodeId} {r : Reg}
    (h : (decl, r) ∈ (issue .fresh calls).slots) : ∃ name, firstName? decl calls = some name ∧ r = .named name := by
  have hregister : (firstName? decl calls).map Reg.named = some r := register?_of_mem_slots h
  obtain ⟨name, hname, rfl⟩ := Option.map_eq_some_iff.mp hregister
  exact ⟨name, hname, rfl⟩

theorem mem_of_firstName? {calls : List NameCall} {decl : NodeId} {name : String}
    (h : firstName? decl calls = some name) : .slot name decl ∈ calls := by
  obtain ⟨call, hcall, hname⟩ := List.exists_of_findSome?_eq_some h
  cases call with
  | temp => cases hname
  | label stem => cases hname
  | slot said d =>
      rw [nameFor?] at hname
      split_ifs at hname with hd
      cases hname
      exact hd ▸ hcall

end NameCall

namespace Issued

/-- The registers of a function, by kind: the temporaries and addresses that it was given, the owner and the
parameters of its method. -/
def registers (issued : Issued) (s : MethodSig) : List (List Reg) :=
  [issued.temps, issued.slots.map (·.2), [.this], s.formals.map fun f => .param f.1]

/-- The texts of all names of a function, by kind: labels, temporaries, addresses, the owner, the parameters. -/
def kinds (issued : Issued) (s : MethodSig) : List (List String) :=
  issued.labels.flatMap Label.texts :: (issued.registers s).map (·.map Reg.text)

end Issued

namespace NameCall

section
variable {calls : List NameCall} (hnames : ∀ name decl, .slot name decl ∈ calls → IsIdentifier name)

theorem exists_temp {r : Reg} (h : r ∈ (issue .fresh calls).temps) : ∃ n, r = .temp n := by
  rw [temps_issue] at h
  obtain ⟨n, _, rfl⟩ := List.mem_map.mp h
  exact ⟨n, rfl⟩

theorem mem_of_mem_labels {l : Label} (h : l ∈ (issue .fresh calls).labels) : .label l.stem ∈ calls := by
  rw [labels_issue] at h
  obtain ⟨e, he, rfl⟩ := List.mem_map.mp h
  obtain ⟨call, hcall, hstem⟩ := List.mem_filterMap.mp (List.fst_mem_of_mem_zipIdx he)
  cases call with
  | temp => cases hstem
  | label stem =>
      cases hstem
      exact hcall
  | slot name decl => cases hstem

include hnames

theorem exists_identifier {r : Reg} (h : r ∈ (issue .fresh calls).slots.map (·.2)) :
    ∃ name, IsIdentifier name ∧ r = .named name := by
  obtain ⟨⟨decl, _⟩, hmem, rfl⟩ := List.mem_map.mp h
  obtain ⟨name, hname, hr⟩ := exists_firstName hmem
  exact ⟨name, hnames name decl (mem_of_firstName? hname), hr⟩

/-- No register is of two kinds. -/
theorem pairwise_registers (s : MethodSig) : ((issue .fresh calls).registers s).Pairwise List.Disjoint := by
  have htemps : ∀ names : List String, (issue .fresh calls).temps.Disjoint (names.map .named) := by
    intro names r hr hr'
    obtain ⟨n, rfl⟩ := exists_temp hr
    obtain ⟨name, _, heq⟩ := List.mem_map.mp hr'
    cases heq
  have hslots : (issue .fresh calls).temps.Disjoint ((issue .fresh calls).slots.map (·.2)) := by
    intro r hr hr'
    obtain ⟨name, _, rfl⟩ := exists_identifier hnames hr'
    exact htemps [name] hr List.mem_cons_self
  have hthis : ((issue .fresh calls).slots.map (·.2)).Disjoint [.this] := by
    intro r hr hr'
    obtain ⟨name, hname, rfl⟩ := exists_identifier hnames hr
    exact hname.ne_this (Reg.named.inj (List.mem_singleton.mp hr'))
  have hparams : ((issue .fresh calls).slots.map (·.2)).Disjoint (s.formals.map fun f => .param f.1) := by
    intro r hr hr'
    obtain ⟨name, hname, rfl⟩ := exists_identifier hnames hr
    obtain ⟨f, _, heq⟩ := List.mem_map.mp hr'
    exact hname.ne_dot f.1 (Reg.named.inj heq).symm
  have howner : List.Disjoint [Reg.this] (s.formals.map fun f => .param f.1) := by
    intro r hr hr'
    obtain rfl := List.mem_singleton.mp hr
    obtain ⟨f, _, heq⟩ := List.mem_map.mp hr'
    have hlist := congrArg String.toList (Reg.named.inj heq)
    simp at hlist
  have hformals := htemps (s.formals.map fun f => "." ++ f.1)
  rw [List.map_map] at hformals
  simp only [Issued.registers, List.pairwise_cons, List.forall_mem_cons]
  exact ⟨⟨hslots, htemps ["this"], hformals, List.forall_mem_nil _⟩, ⟨hthis, hparams, List.forall_mem_nil _⟩,
    ⟨howner, List.forall_mem_nil _⟩, List.forall_mem_nil _, .nil⟩

/-- All registers but the parameters have proper names. -/
theorem clear_of_mem {s : MethodSig} {regs : List Reg} (h : regs ∈ (issue .fresh calls).registers s) {r : Reg}
    (hr : r ∈ regs) : r.Clear ∨ ∃ f ∈ s.formals, r = .param f.1 := by
  simp only [Issued.registers, List.mem_cons, List.not_mem_nil, or_false] at h
  rcases h with rfl | rfl | rfl | rfl
  · obtain ⟨n, rfl⟩ := exists_temp hr
    exact .inl trivial
  · obtain ⟨name, hname, rfl⟩ := exists_identifier hnames hr
    exact .inl (.inl hname.1)
  · obtain rfl := List.mem_singleton.mp hr
    exact .inl isRegName_this
  · obtain ⟨f, hf, rfl⟩ := List.mem_map.mp hr
    exact .inr ⟨f, hf, rfl⟩

theorem shown_of_mem {s : MethodSig} {regs : List Reg} (h : regs ∈ (issue .fresh calls).registers s) {r : Reg}
    (hr : r ∈ regs) : r.Shown := by
  rcases clear_of_mem hnames h hr with hclear | ⟨f, _, rfl⟩
  · exact hclear.shown
  · exact Reg.shown_param f.1

/-- No text is the text of registers of two kinds. -/
theorem pairwise_texts (s : MethodSig) :
    (((issue .fresh calls).registers s).map (·.map Reg.text)).Pairwise List.Disjoint := by
  rw [List.pairwise_map]
  refine (pairwise_registers hnames s).imp_of_mem fun hregs hothers hdisjoint text htext htext' => ?_
  obtain ⟨r, hr, rfl⟩ := List.mem_map.mp htext
  obtain ⟨q, hq, heq⟩ := List.mem_map.mp htext'
  obtain rfl := Reg.eq_of_text_eq (shown_of_mem hnames hothers hq) (shown_of_mem hnames hregs hr) heq
  exact hdisjoint hr hq

variable {s : MethodSig}
  (happart : (∀ stem, .label stem ∈ calls → StartsWithLetter stem) ∨ ∀ f ∈ s.formals, IsIdentifier f.1)

include happart

/-- Labels are not written like registers. -/
theorem disjoint_labels {regs : List Reg} (h : regs ∈ (issue .fresh calls).registers s) :
    ((issue .fresh calls).labels.flatMap Label.texts).Disjoint (regs.map Reg.text) := by
  intro text htext htext'
  obtain ⟨l, hl, htext⟩ := List.mem_flatMap.mp htext
  obtain ⟨r, hr, rfl⟩ := List.mem_map.mp htext'
  rcases clear_of_mem hnames h hr with hclear | ⟨f, hf, rfl⟩
  · exact Label.text_not_mem_texts hclear l htext
  · -- A parameter is the only register whose name may have a dot in it, so only here the stem matters.
    rcases happart with hstems | hformals
    · exact Label.text_param_not_mem_texts (hstems _ (mem_of_mem_labels hl)) f.1 htext
    · have hclear : (Reg.param f.1).Clear := .inr ⟨_, String.toList_append, (hformals f hf).1⟩
      exact Label.text_not_mem_texts hclear l htext

theorem pairwise_kinds : ((issue .fresh calls).kinds s).Pairwise List.Disjoint := by
  rw [Issued.kinds, List.pairwise_cons, List.forall_mem_map]
  exact ⟨fun regs hregs => disjoint_labels hnames happart hregs, pairwise_texts hnames s⟩

end

/-- **Names do not collide.** Whatever is asked of the names of a function, all temporaries are written differently,
and so are all labels, also those whose stems have dots and numbers in them. The address of a variable is the
same whenever it is asked for. It is written as the name that was said first, so two variables share it exactly
if the same was said first for both. Labels, temporaries, addresses, the owner and the parameters of the method are
not written alike if variables are named by identifiers and stems start with letters. The stems do not matter if
the parameters are named by identifiers, too. -/
theorem issued_names_never_collide (calls : List NameCall) (s : MethodSig) :
    ((issue .fresh calls).temps.map Reg.text).Nodup ∧
    ((issue .fresh calls).labels.map Label.text).Nodup ∧
    (∀ decl r r', (decl, r) ∈ (issue .fresh calls).slots → (decl, r') ∈ (issue .fresh calls).slots → r = r') ∧
    (∀ decl r, (decl, r) ∈ (issue .fresh calls).slots →
      ∃ name, firstName? decl calls = some name ∧ r.text = "%" ++ name) ∧
    (∀ decl decl' r r', (decl, r) ∈ (issue .fresh calls).slots → (decl', r') ∈ (issue .fresh calls).slots →
      (r.text = r'.text ↔ firstName? decl calls = firstName? decl' calls)) ∧
    (FnSig.ofMethod s).params.map (fun p => Reg.named p.2) = .this :: s.formals.map (fun f => .param f.1) ∧
    ((∀ name decl, .slot name decl ∈ calls → IsIdentifier name) →
      (∀ stem, .label stem ∈ calls → StartsWithLetter stem) ∨ (∀ f ∈ s.formals, IsIdentifier f.1) →
      ((issue .fresh calls).kinds s).Pairwise List.Disjoint) := by
  refine ⟨nodup_temps _ _, nodup_labels _ _, ?_, ?_, ?_, ?_, fun hnames happart => pairwise_kinds hnames happart⟩
  · intro decl r r' h h'
    obtain ⟨name, hname, rfl⟩ := exists_firstName h
    obtain ⟨other, hother, rfl⟩ := exists_firstName h'
    rw [Option.some.inj (hname.symm.trans hother)]
  · intro decl r h
    obtain ⟨name, hname, rfl⟩ := exists_firstName h
    exact ⟨name, hname, rfl⟩
  · intro decl decl' r r' h h'
    obtain ⟨name, hname, rfl⟩ := exists_firstName h
    obtain ⟨other, hother, rfl⟩ := exists_firstName h'
    rw [hname, hother, Option.some.injEq]
    exact String.append_right_inj _
  · rw [FnSig.ofMethod, List.map_cons, List.map_map]
    rfl

/-- The second stem with its number is the first stem, and a variable is called something else when it is asked for
again. -/
def shadowCalls : List NameCall :=
  [.label "if.1", .label "if", .slot "x" 4, .temp, .slot "y" 4, .slot "x" 9, .temp, .slot "y" 7]

/-- A method with one parameter that is named like a variable and one that is named like a stem. -/
def shadowSig : MethodSig :=
  ⟨"Shadow.of", .int, [("x", .int), ("if", .boolean)]⟩

theorem issued_names_never_collide_shadow :
    (issue .fresh shadowCalls).slots = [(4, .named "x"), (4, .named "x"), (9, .named "x"), (7, .named "y")] ∧
      (issue .fresh shadowCalls).kinds shadowSig =
        [["if.1.0", "%if.1.0", "if.1", "%if.1"], ["%_0", "%_1"], ["%x", "%x", "%x", "%y"], ["%this"],
          ["%.x", "%.if"]] ∧
      ((issue .fresh shadowCalls).kinds shadowSig).Pairwise List.Disjoint := by
  obtain ⟨_, _, _, _, _, _, hkinds⟩ := issued_names_never_collide shadowCalls shadowSig
  refine ⟨by decide +kernel, by decide +kernel, hkinds ?_ (.inl ?_)⟩
  · intro name decl hcall
    have hname : name = "x" ∨ name = "y" := by
      simp only [shadowCalls, List.mem_cons, List.not_mem_nil, reduceCtorEq, slot.injEq, false_or, or_false] at hcall
      tauto
    rcases hname with rfl | rfl
    · exact ⟨⟨'x', [], rfl, rfl, List.forall_mem_nil _⟩, by decide⟩
    · exact ⟨⟨'y', [], rfl, rfl, List.forall_mem_nil _⟩, by decide⟩
  · intro stem hcall
    simp only [shadowCalls, List.mem_cons, List.not_mem_nil, reduceCtorEq, label.injEq, or_false] at hcall
    rcases hcall with rfl | rfl
    · exact ⟨'i', ['f', '.', '1'], rfl, rfl⟩
    · exact ⟨'i', ['f'], rfl, rfl⟩

end NameCall

end Demitasse
