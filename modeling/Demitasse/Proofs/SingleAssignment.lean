import Demitasse.Proofs.ControlFlow
import Demitasse.Proofs.Dominance
import Demitasse.Proofs.Variables

/-! Checked programs are compiled to static single assignment form. The temporaries of a function have
consecutive numbers; the other registers are named after the parameters and local variables of a method, which
have different names and are the only variables that are looked up on the stack. -/

namespace Demitasse

namespace Region

variable {S : Reg → Prop} {s t : Point} {c : Code}

open Code

/-- The temporaries from the number `m` on, up to those with the number `n`. -/
def temps (m n : Nat) : List Reg :=
  (List.range' m (n - m)).map .temp

theorem temps_self (n : Nat) : temps n n = [] := by
  rw [temps, Nat.sub_self]
  rfl

theorem temps_succ (n : Nat) : temps n (n + 1) = [.temp n] := by
  rw [temps, Nat.add_sub_cancel_left]
  rfl

theorem temps_append {k m n : Nat} (hkm : k ≤ m) (hmn : m ≤ n) : temps k m ++ temps m n = temps k n := by
  obtain ⟨i, rfl⟩ := Nat.exists_eq_add_of_le hkm
  obtain ⟨j, rfl⟩ := Nat.exists_eq_add_of_le hmn
  rw [temps, temps, temps, ← List.map_append, Nat.add_sub_cancel_left, Nat.add_sub_cancel_left, Nat.add_assoc,
    Nat.add_sub_cancel_left, List.range'_append_1]

/-- A region defines the temporaries between its start and its end, each of them once. -/
theorem results_eq (h : Region S s c t) : results c.instrs = temps s.nextTemp t.nextTemp := by
  induction h with
  | nil s => exact (temps_self _).symm
  | append hc hd ihc ihd =>
      rw [instrs_append, results_append, ihc, ihd, temps_append hc.nextTemp_le hd.nextTemp_le]
  | effect _ hresult _ => simp [hresult, temps_self]
  | value _ hresult _ => simp [hresult, temps_succ]
  | guarded _ _ _ ih => simp [Code.guarded, ih, Instr.result?, Instr.definition?]
  | choice _ hthen helse ihthen ihelse =>
      have happend := temps_append hthen.nextTemp_le helse.nextTemp_le
      simpa [Code.choice, ihthen, ihelse, Instr.result?, Instr.definition?] using happend
  | cycle hcond _ hbody ihcond ihbody =>
      have happend := temps_append hcond.nextTemp_le hbody.nextTemp_le
      simpa [Code.cycle, ihcond, ihbody, Instr.result?, Instr.definition?] using happend
  | @conjunction s t _ _ _ _ hright _ ih =>
      have happend := temps_append hright.nextTemp_le (Nat.le_succ t.nextTemp)
      simpa [Code.conjunction, ih, Instr.result?, Instr.definition?, temps_succ] using happend

end Region

namespace Code.Flows

variable {Λ : List (Label × List Reg)} {known there other next : List Reg} {l m n : Label}

theorem branch (hm : (m, there) ∈ Λ) (hsub : there ⊆ known) (hl : (l, next) ∈ Λ) :
    Flows Λ (some known) [.instr (.branch m), .label l] (some next) := by
  refine .leave rfl (List.nil_subset _) ?_ (.label hl (.nil _))
  exact List.forall_mem_singleton.mpr ⟨there, hm, hsub⟩

theorem branchIf {cond : Operand} (hcond : ∀ r, cond = .reg r → r ∈ known) (hm : (m, there) ∈ Λ)
    (hsub : there ⊆ known) (hn : (n, other) ∈ Λ) (hsub' : other ⊆ known) (hl : (l, next) ∈ Λ) :
    Flows Λ (some known) [.instr (.branchIf cond m n), .label l] (some next) := by
  refine .leave rfl (fun r hr => ?_) ?_ (.label hl (.nil _))
  · obtain ⟨_, ty, hmem⟩ := Instr.mem_reads.mp hr
    cases List.mem_singleton.mp hmem
    exact hcond r rfl
  · exact List.forall_mem_cons.mpr ⟨⟨there, hm, hsub⟩, List.forall_mem_singleton.mpr ⟨other, hn, hsub'⟩⟩

/-! The forms with labels, from what is known at their labels. -/

variable {K K' K'' : List Reg} {index : Nat} {cond left right : Operand}
  {body condCode thenCode elseCode rightCode : Code}

theorem guarded {stem : String} (hcond : ∀ r, cond = .reg r → r ∈ K) (hn : (⟨stem, index⟩, K) ∈ Λ)
    (hm : (⟨stem, index + 1⟩, K) ∈ Λ) (hbody : Flows Λ (some K) body (some K')) (hsub : K ⊆ K') :
    Flows Λ (some K) (.guarded stem index cond body) (some K) :=
  .append (.append (.branchIf hcond hn (List.Subset.refl _) hm (List.Subset.refl _) hn) hbody)
    (.branch hm hsub hm)

theorem choice (hcond : ∀ r, cond = .reg r → r ∈ K) (hn : (⟨"if", index⟩, K) ∈ Λ)
    (hm : (⟨"if", index + 1⟩, K) ∈ Λ) (hend : (⟨"if", index + 2⟩, K) ∈ Λ)
    (hthen : Flows Λ (some K) thenCode (some K')) (hsub : K ⊆ K')
    (helse : Flows Λ (some K) elseCode (some K'')) (hsub' : K ⊆ K'') :
    Flows Λ (some K) (.choice index cond thenCode elseCode) (some K) :=
  .append (.append (.append (.append (.branchIf hcond hn (List.Subset.refl _) hm (List.Subset.refl _) hn) hthen)
    (.branch hend hsub hm)) helse) (.branch hend hsub' hend)

theorem cycle (hn : (⟨"loop", index⟩, K) ∈ Λ) (hm : (⟨"loop", index + 1⟩, K') ∈ Λ)
    (hend : (⟨"loop", index + 2⟩, K') ∈ Λ) (hcondCode : Flows Λ (some K) condCode (some K'))
    (hcond : ∀ r, cond = .reg r → r ∈ K') (hbody : Flows Λ (some K') body (some K'')) (hsub : K ⊆ K'') :
    Flows Λ (some K) (.cycle index condCode cond body) (some K') :=
  .append (.append (.append (.append (.branch hn (List.Subset.refl _) hn) hcondCode)
    (.branchIf hcond hm (List.Subset.refl _) hend (List.Subset.refl _) hm)) hbody) (.branch hn hsub hend)

/-- The last operand is read at the end of the block in front of the last label. -/
theorem conjunction {result : Reg} (hleft : ∀ r, left = .reg r → r ∈ K) (hn : (⟨"andcond", index⟩, K) ∈ Λ)
    (hm : (⟨"andcond", index + 1⟩, K) ∈ Λ) (hdone : (⟨"andcond", index + 2⟩, K') ∈ Λ)
    (hend : (⟨"andcond", index + 3⟩, K) ∈ Λ) (hrightCode : Flows Λ (some K) rightCode (some K')) (hsub : K ⊆ K')
    (hright : ∀ r, right = .reg r → r ∈ K') :
    Flows Λ (some K) (.conjunction index left rightCode right result) (some (result :: K)) := by
  have hphi : Flows Λ (some K)
      [.instr (.phi result .i1 [(.const 0, ⟨"andcond", index⟩), (right, ⟨"andcond", index + 2⟩)])]
      (some (result :: K)) := by
    refine .go rfl (List.nil_subset _) ?_ (.nil _)
    refine List.forall_mem_cons.mpr ⟨nofun, List.forall_mem_singleton.mpr fun r hr => ?_⟩
    exact ⟨K', hdone, hright r hr⟩
  have hstart := Flows.append (.branch hn (List.Subset.refl _) hn)
    (.branchIf hleft hm (List.Subset.refl _) hend (List.Subset.refl _) hm)
  have hstop := Flows.append (.branch hdone (List.Subset.refl _) hdone)
    (.append (.branch hend hsub hend) hphi)
  exact .append (.append hstart hrightCode) hstop

end Code.Flows

theorem Point.Sees.mem {base : List Reg} {s : Point} {o : Operand} (h : s.Sees (· ∈ base) o) :
    ∀ r, o = .reg r → r ∈ s.known ++ base := by
  intro r hr
  rw [List.mem_append, or_comm]
  exact h r hr

theorem Point.reads_subset {base : List Reg} {s : Point} {i : Instr}
    (h : ∀ u ∈ i.operands, s.Sees (· ∈ base) u.1) : i.reads ⊆ s.known ++ base := by
  intro r hr
  obtain ⟨_, ty, hmem⟩ := Instr.mem_reads.mp hr
  exact (h _ hmem).mem r rfl

theorem Instr.incoming_of_isPlain {i : Instr} (h : i.isPlain = true) : i.incoming = [] := by
  cases i <;> first | rfl | cases h

theorem Region.known_append_subset {S : Reg → Prop} {s t : Point} {c : Code} (h : Region S s c t)
    (base : List Reg) : s.known ++ base ⊆ t.known ++ base := by
  rw [List.append_subset]
  exact ⟨List.Subset.trans h.known_subset (List.subset_append_left _ _), List.subset_append_right _ _⟩

/-- The lines of a region can be gone through, with what is known at its start and at its end. -/
theorem Region.flows {base : List Reg} {s t : Point} {c : Code} (h : Region (· ∈ base) s c t) :
    ∃ Λ, Λ.map (·.1) = c.labels ∧ c.Flows Λ (some (s.known ++ base)) (some (t.known ++ base)) := by
  induction h with
  | nil s => exact ⟨[], rfl, .nil _⟩
  | append _ _ ihc ihd =>
      obtain ⟨Λ, hΛ, hc⟩ := ihc
      obtain ⟨Λ', hΛ', hd⟩ := ihd
      refine ⟨Λ ++ Λ', by rw [List.map_append, hΛ, hΛ', Code.labels_append], ?_⟩
      exact (hc.mono (List.subset_append_left _ _)).append (hd.mono (List.subset_append_right _ _))
  | effect hplain hresult hsees =>
      refine ⟨[], rfl, .go (Instr.isTerminator_of_isPlain hplain) (Point.reads_subset hsees) ?_ ?_⟩
      · rw [Instr.incoming_of_isPlain hplain]
        exact List.forall_mem_nil _
      · rw [hresult]
        exact .nil _
  | value hplain hresult hsees =>
      refine ⟨[], rfl, .go (Instr.isTerminator_of_isPlain hplain) (Point.reads_subset hsees) ?_ ?_⟩
      · rw [Instr.incoming_of_isPlain hplain]
        exact List.forall_mem_nil _
      · rw [hresult]
        exact .nil _
  | @guarded s t stem cond body hcond hbody ih =>
      obtain ⟨Λ, hΛ, hflow⟩ := ih
      refine ⟨(⟨stem, s.nextLabel⟩, s.known ++ base) :: (Λ ++ [(⟨stem, s.nextLabel + 1⟩, s.known ++ base)]),
        by simp [hΛ], ?_⟩
      exact .guarded hcond.mem (by simp) (by simp) (hflow.mono fun e he => by simp [he])
        (hbody.known_append_subset base)
  | @choice s t u cond _ _ hcond hthen helse ihthen ihelse =>
      obtain ⟨Λ, hΛ, hthenFlow⟩ := ihthen
      obtain ⟨Λ', hΛ', helseFlow⟩ := ihelse
      refine ⟨(⟨"if", s.nextLabel⟩, s.known ++ base) :: (Λ ++ (⟨"if", s.nextLabel + 1⟩, s.known ++ base) ::
        (Λ' ++ [(⟨"if", s.nextLabel + 2⟩, s.known ++ base)])), by simp [hΛ, hΛ'], ?_⟩
      exact .choice hcond.mem (by simp) (by simp) (by simp) (hthenFlow.mono fun e he => by simp [he])
        (hthen.known_append_subset base) (helseFlow.mono fun e he => by simp [he])
        (helse.known_append_subset base)
  | @cycle s t u _ cond _ hcondCode hcond hbody ihcond ihbody =>
      obtain ⟨Λ, hΛ, hcondFlow⟩ := ihcond
      obtain ⟨Λ', hΛ', hbodyFlow⟩ := ihbody
      refine ⟨(⟨"loop", s.nextLabel⟩, s.known ++ base) :: (Λ ++ (⟨"loop", s.nextLabel + 1⟩, t.known ++ base) ::
        (Λ' ++ [(⟨"loop", s.nextLabel + 2⟩, t.known ++ base)])), by simp [hΛ, hΛ'], ?_⟩
      exact .cycle (by simp) (by simp) (by simp) (hcondFlow.mono fun e he => by simp [he]) hcond.mem
        (hbodyFlow.mono fun e he => by simp [he])
        (List.Subset.trans (hcondCode.known_append_subset base) (hbody.known_append_subset base))
  | @conjunction s t left right _ hleft hrightCode hright ih =>
      obtain ⟨Λ, hΛ, hflow⟩ := ih
      refine ⟨(⟨"andcond", s.nextLabel⟩, s.known ++ base) :: (⟨"andcond", s.nextLabel + 1⟩, s.known ++ base) ::
        (Λ ++ [(⟨"andcond", s.nextLabel + 2⟩, t.known ++ base), (⟨"andcond", s.nextLabel + 3⟩, s.known ++ base)]),
        by simp [hΛ], ?_⟩
      exact .conjunction hleft.mem (by simp) (by simp) (by simp) (by simp)
        (hflow.mono fun e he => by simp [he]) (hrightCode.known_append_subset base) hright.mem

theorem Instr.result?_of_isTerminator {i : Instr} (h : i.isTerminator = true) : i.result? = none := by
  cases i <;> first | rfl | cases h

@[simp] theorem Code.instrs_ofInstrs (is : List Instr) : (ofInstrs is).instrs = is := by
  induction is with
  | nil => rfl
  | cons i is ih => exact congrArg (i :: ·) ih

theorem nodup_named_append_temps {names : List String} (hnodup : names.Nodup) (m n : Nat) :
    (names.map Reg.named ++ Region.temps m n).Nodup := by
  rw [List.nodup_append]
  refine ⟨hnodup.map fun _ _ heq => Reg.named.inj heq, ?_, ?_⟩
  · exact (List.nodup_range' 1).map fun _ _ heq => Reg.temp.inj heq
  · intro r hr q hq heq
    obtain ⟨name, _, rfl⟩ := List.mem_map.mp hr
    obtain ⟨k, _, rfl⟩ := List.mem_map.mp hq
    cases heq

/-- Instructions that name registers, a region and an instruction that leaves the function. -/
theorem IrFunction.ssa_of_region {f : IrFunction} {is : List Instr} {c : Code} {last : Instr} {base : List Reg}
    {s t : Point} {names : List String} (hcode : f.code = Code.ofInstrs is ++ c ++ [.instr last])
    (his : ∀ i ∈ is, i.isPlain = true)
    (hstart : Code.Flows [] (some f.params) (Code.ofInstrs is) (some base))
    (hregion : Region (· ∈ base) s c t) (hs : s.known = []) (hlast : last.isTerminator = true)
    (htargets : last.targets = []) (hreads : last.reads ⊆ t.known ++ base)
    (hnames : f.params ++ results is = names.map .named) (hnodup : names.Nodup)
    (hclear : ∀ name ∈ names, IsRegName name) : f.Ssa := by
  have hflow : f.code.ControlFlow := by
    rw [hcode]
    exact Code.controlFlow is last his hregion hlast htargets
  obtain ⟨Λ, hΛ, hregionFlow⟩ := hregion.flows
  rw [hs, List.nil_append] at hregionFlow
  have hflows : f.code.Flows Λ (some f.params) none := by
    rw [hcode]
    refine .append (.append (hstart.mono (List.nil_subset _)) hregionFlow) (.leave hlast hreads ?_ (.nil _))
    rw [htargets]
    exact List.forall_mem_nil _
  have hdefinitions : f.definitions.map (·.1) = names.map .named ++ Region.temps s.nextTemp t.nextTemp := by
    rw [definitions_fst, hcode]
    simp [hregion.results_eq, Instr.result?_of_isTerminator hlast, ← hnames]
  have hall : ∀ r ∈ f.definitions.map (·.1), r.Clear := by
    rw [hdefinitions, List.forall_mem_append, List.forall_mem_map]
    refine ⟨hclear, fun r hr => ?_⟩
    obtain ⟨k, _, rfl⟩ := List.mem_map.mp hr
    trivial
  refine IrFunction.ssa hflow hflows ?_ ?_ ?_
  · rw [hΛ, hcode]
    simp
  · have htexts : ((f.definitions.map (·.1)).map Reg.text).Nodup := by
      refine List.Nodup.map_on (fun r hr q hq => Reg.text_inj (hall r hr) (hall q hq)) ?_
      rw [hdefinitions]
      exact nodup_named_append_temps hnodup _ _
    rw [List.map_map] at htexts
    exact htexts
  · intro d hd l _
    exact Reg.text_ne_label (hall d.1 (List.mem_map_of_mem hd)) l

/-- The names of the registers of a method that are not temporaries. -/
def MethodDecl.regNames (m : MethodDecl) : List String :=
  "this" :: (m.formals.map fun f => "." ++ f.name) ++ m.stackVars.map (·.name)

theorem results_formalInstrs (fs : List VarDecl) : results (formalInstrs fs) = fs.map (.named ·.name) := by
  induction fs with
  | nil => rfl
  | cons f fs ih =>
      rw [formalInstrs, List.flatMap_cons, results_append, ← formalInstrs, ih]
      rfl

theorem results_localInstrs (vs : List VarDecl) : results (localInstrs vs) = vs.map (.named ·.name) := by
  induction vs with
  | nil => rfl
  | cons v vs ih => exact congrArg (.named v.name :: ·) ih

theorem isPlain_prologue (m : MethodDecl) : ∀ i ∈ m.prologue, i.isPlain = true := by
  rw [MethodDecl.prologue, List.forall_mem_append]
  constructor
  · intro i hi
    obtain ⟨f, _, hi⟩ := List.mem_flatMap.mp hi
    rcases List.mem_cons.mp hi with rfl | hi
    · rfl
    · obtain rfl := List.mem_singleton.mp hi
      rfl
  · exact List.forall_mem_map.mpr fun v _ => rfl

theorem flows_formalInstrs {Λ : List (Label × List Reg)} (fs : List VarDecl) : ∀ {known : List Reg},
    (∀ f ∈ fs, .param f.name ∈ known) →
    Code.Flows Λ (some known) (Code.ofInstrs (formalInstrs fs)) (some ((fs.map (.named ·.name)).reverse ++ known)) := by
  induction fs with
  | nil =>
      intro known _
      exact .nil _
  | cons f fs ih =>
      intro known h
      obtain ⟨hf, hfs⟩ := List.forall_mem_cons.mp h
      have hstore : (Instr.store f.ty.ir (.reg (.param f.name)) (.reg (.named f.name))).reads ⊆
          .named f.name :: known := by
        rw [show Instr.reads _ = [.param f.name, .named f.name] from rfl, List.cons_subset, List.cons_subset]
        exact ⟨List.mem_cons_of_mem _ hf, List.mem_cons_self, List.nil_subset _⟩
      rw [List.map_cons, List.reverse_cons, List.append_assoc]
      refine .go rfl (List.nil_subset _) (List.forall_mem_nil _) (.go rfl hstore (List.forall_mem_nil _) ?_)
      exact ih fun g hg => List.mem_cons_of_mem _ (hfs g hg)

theorem flows_localInstrs {Λ : List (Label × List Reg)} (vs : List VarDecl) : ∀ {known : List Reg},
    Code.Flows Λ (some known) (Code.ofInstrs (localInstrs vs)) (some ((vs.map (.named ·.name)).reverse ++ known)) := by
  induction vs with
  | nil =>
      intro known
      exact .nil _
  | cons v vs ih =>
      intro known
      rw [List.map_cons, List.reverse_cons, List.append_assoc]
      exact .go rfl (List.nil_subset _) (List.forall_mem_nil _) ih

/-- The registers that have a value in the whole body of a method. -/
def MethodDecl.base (m : MethodDecl) : List Reg :=
  (m.stackVars.map (.named ·.name)).reverse ++ .this :: m.formals.map (.param ·.name)

theorem MethodDecl.flows_prologue (m : MethodDecl) (Λ : List (Label × List Reg)) :
    Code.Flows Λ (some (.this :: m.formals.map (.param ·.name))) (Code.ofInstrs m.prologue) (some m.base) := by
  rw [prologue, Code.ofInstrs_append, base, stackVars, List.map_append, List.reverse_append, List.append_assoc]
  refine (flows_formalInstrs m.formals fun f hf => ?_).append (flows_localInstrs m.locals)
  exact List.mem_cons_of_mem _ (List.mem_map.mpr ⟨f, hf, rfl⟩)

section
variable {a : Analysis} {p : Program} {c : ClassDecl} {m : MethodDecl} {f : IrFunction}

/-- In a method, addresses are found in the registers that its first instructions define. -/
theorem Analysis.Describes.addresses_method (h : a.Describes p) (hids : (nodeIds p.visits).Nodup)
    (hc : c ∈ p.classes) (hm : m ∈ c.methods) :
    Context.Addresses ⟨a, some c.name⟩ (nodeIds m.visits) (· ∈ m.base) (· = m.startNames.slots) := by
  refine ⟨fun _ _ => List.mem_append_right _ List.mem_cons_self, fun id hid name b hb hstack names hnames => ?_⟩
  obtain ⟨v, hv, rfl, hdecl, _⟩ := h.exists_stackVar hids hc hm hid hb hstack
  have hlookup : names.slots.lookup b.decl = some (.named v.name) := by
    rw [hnames, ← hdecl]
    exact MethodDecl.lookup_startNames (MethodDecl.nodup_stackVars (Program.nodup_method hids hc hm)) hv
  rw [Names.slot_of_lookup hlookup]
  exact ⟨List.mem_append_left _ (List.mem_reverse.mpr (List.mem_map.mpr ⟨v, hv, rfl⟩)), hnames⟩

theorem Analysis.Describes.addresses_main (h : a.Describes p) (hids : (nodeIds p.visits).Nodup)
    (S : Reg → Prop) (I : List (NodeId × Reg) → Prop) :
    Context.Addresses ⟨a, none⟩ (nodeIds p.main.visits) S I := by
  refine ⟨nofun, fun id hid name b hb => ?_⟩
  rw [h.resolve?_main hids hid] at hb
  cases hb

theorem isRegName_this : IsRegName "this" :=
  Or.inl ⟨'t', ['h', 'i', 's'], rfl, rfl, by simp [isWordChar]⟩

theorem MethodDecl.isRegName_of_mem (hidentifier : ∀ v ∈ m.stackVars, IsIdentifier v.name) :
    ∀ name ∈ m.regNames, IsRegName name := by
  rw [regNames, List.cons_append, List.forall_mem_cons, List.forall_mem_append, List.forall_mem_map,
    List.forall_mem_map]
  refine ⟨isRegName_this, fun v hv => ?_, fun v hv => Or.inl (hidentifier v hv).1⟩
  exact Or.inr ⟨v.name.toList, by simp, (hidentifier v (List.mem_append_left _ hv)).1⟩

theorem IsIdentifier.ne_dot {name : String} (h : IsIdentifier name) (other : String) : name ≠ "." ++ other := by
  rintro rfl
  exact h.1.dot_not_mem (by simp)

theorem IsIdentifier.ne_this {name : String} (h : IsIdentifier name) : name ≠ "this" := by
  rintro rfl
  exact absurd (isName_iff.mp h.2) (by decide)

/-- The names of registers differ, as variables are not named alike and not by the keyword. -/
theorem MethodDecl.nodup_regNames (hnodup : (m.stackVars.map (·.name)).Nodup)
    (hidentifier : ∀ v ∈ m.stackVars, IsIdentifier v.name) : m.regNames.Nodup := by
  have hparams : (m.formals.map fun f => "." ++ f.name).Nodup := by
    have hformals : (m.formals.map (·.name)).Nodup := by
      rw [stackVars, List.map_append] at hnodup
      exact hnodup.of_append_left
    rw [show (m.formals.map fun f => "." ++ f.name) = (m.formals.map (·.name)).map ("." ++ ·) by simp]
    exact hformals.map fun _ _ heq => (String.append_right_inj _).mp heq
  rw [regNames, List.cons_append, List.nodup_cons, List.nodup_append]
  refine ⟨?_, hparams, hnodup, ?_⟩
  · rw [List.mem_append, not_or]
    constructor
    · intro hmem
      obtain ⟨f, _, hf⟩ := List.mem_map.mp hmem
      have hlist := congrArg String.toList hf
      simp at hlist
    · intro hmem
      obtain ⟨v, hv, hthis⟩ := List.mem_map.mp hmem
      exact (hidentifier v hv).ne_this hthis
  · rintro _ hparam _ hvar rfl
    obtain ⟨f, _, hf⟩ := List.mem_map.mp hparam
    obtain ⟨v, hv, hname⟩ := List.mem_map.mp hvar
    exact (hidentifier v hv).ne_dot f.name (hname.trans hf.symm)

theorem MethodDecl.params_eq (m : MethodDecl) (className : String) (code : Code) :
    IrFunction.params ⟨.ofMethod (m.signature className), code⟩ = .this :: m.formals.map (.param ·.name) := by
  simp only [IrFunction.params, FnSig.ofMethod, signature, List.map_cons, List.map_map]
  rfl

theorem MethodDecl.params_append_results (m : MethodDecl) (className : String) (code : Code) :
    IrFunction.params ⟨.ofMethod (m.signature className), code⟩ ++ results m.prologue =
      m.regNames.map .named := by
  have hresults : results m.prologue = m.stackVars.map (.named ·.name) := by
    rw [prologue, results_append, results_formalInstrs, results_localInstrs, stackVars, List.map_append]
  rw [params_eq, hresults, regNames, List.map_append, List.map_cons, List.map_map, List.map_map]
  rfl

/-- The function of a checked method. -/
theorem MethodDecl.ssa (h : a.Describes p) (hids : (nodeIds p.visits).Nodup) (hc : c ∈ p.classes)
    (hm : m ∈ c.methods) (hidentifier : ∀ v ∈ m.stackVars, IsIdentifier v.name)
    (hcheck : m.checkDecl a c = .ok ()) (hf : m.lower a c.name = .ok f) : f.Ssa := by
  have hnodup := MethodDecl.nodup_stackVars (Program.nodup_method hids hc hm)
  obtain ⟨bodyCode, names₁, resultCode, result, names₂, hbody, hresult, rfl⟩ := m.code_of_lower hnodup hf
  obtain ⟨hbodyIds, hresultIds⟩ := m.nodeIds_subset
  have hprologue := m.flows_prologue []
  rw [← m.params_eq c.name] at hprologue
  have hΓ := h.addresses_method hids hc hm
  obtain ⟨known₁, hbody, _, hslots⟩ := Stmt.emits_lowerAll hΓ m.body [] hbodyIds hbody rfl
  obtain ⟨known₂, hresult, hsees, _⟩ := m.result.emits_lower hΓ known₁ hresultIds hresult hslots
  refine IrFunction.ssa_of_region rfl (isPlain_prologue m) hprologue (.append hbody hresult) rfl rfl
    rfl (Point.reads_subset ?_) (m.params_append_results c.name _) ?_ (m.isRegName_of_mem hidentifier)
  · exact List.forall_mem_singleton.mpr (hsees _ List.mem_cons_self)
  · exact MethodDecl.nodup_regNames (MethodDecl.of_checkDecl hcheck).2.1 hidentifier

theorem MainClass.ssa (h : a.Describes p) (hids : (nodeIds p.visits).Nodup) (hf : p.main.lower a = .ok f) :
    f.Ssa := by
  obtain ⟨code, names, hbody, rfl⟩ := MainClass.lower_eq_ok hf
  have hΓ := h.addresses_main hids (· ∈ []) fun _ => True
  have hsub : nodeIds p.main.body.visits ⊆ nodeIds p.main.visits := fun id hid => List.mem_cons_of_mem _ hid
  obtain ⟨known, hregion, _, _⟩ := p.main.body.emits_lower hΓ [] hsub hbody trivial
  have hcode : code ++ [.instr (.ret .i32 (.const 0))] =
      Code.ofInstrs [] ++ code ++ [.instr (.ret .i32 (.const 0))] := rfl
  exact IrFunction.ssa_of_region hcode (List.forall_mem_nil _) (.nil _) hregion rfl rfl rfl (List.nil_subset _)
    List.map_nil.symm List.nodup_nil (List.forall_mem_nil _)

theorem helpers_ssa : ∀ f ∈ preamble.helpers, f.Ssa := by
  have hflow := helpers_controlFlow
  simp only [preamble, List.forall_mem_cons] at hflow ⊢
  refine ⟨?_, ?_, List.forall_mem_nil _⟩
  · refine IrFunction.ssa hflow.1 (Λ := []) (k := none) ?_ rfl (by decide) ?_
    · refine .go rfl (List.nil_subset _) (List.forall_mem_nil _) (.go rfl (by decide) (List.forall_mem_nil _) ?_)
      exact .leave rfl (List.nil_subset _) (List.forall_mem_nil _) (.nil _)
    · exact fun _ _ => List.forall_mem_nil _
  · refine IrFunction.ssa hflow.2.1 (Λ := []) (k := none) ?_ rfl (by decide) ?_
    · refine .go rfl (List.nil_subset _) (List.forall_mem_nil _) (.go rfl (by decide) (List.forall_mem_nil _) ?_)
      refine .go rfl (List.nil_subset _) (List.forall_mem_nil _) ?_
      exact .leave rfl (List.nil_subset _) (List.forall_mem_nil _) (.nil _)
    · exact fun _ _ => List.forall_mem_nil _

end

/-- A program that was read and checked is lowered, and all functions of its module are in static single
assignment form. -/
theorem functions_ssa {source : String} {p : Program} {a : Analysis} (hparse : parse source = .ok p)
    (ha : Analysis.ofProgram p = .ok a) (hcheck : p.check a = .ok ()) :
    ∃ M, p.lower a = .ok M ∧ ∀ f ∈ M.preamble.helpers ++ M.functions, f.Ssa := by
  have hids := nodeIds_nodup_of_parse hparse
  have h := Analysis.describes ha
  obtain ⟨M, hM⟩ := Program.exists_lower hids ha hcheck
  refine ⟨M, hM, ?_⟩
  obtain ⟨hpreamble, _, hfunctions⟩ := Program.lower_eq_ok hM
  rw [hpreamble, List.forall_mem_append]
  refine ⟨helpers_ssa, fun f hf => ?_⟩
  rcases (hfunctions f).mp hf with hmain | ⟨c, hc, m, hm, hmethod⟩
  · exact MainClass.ssa h hids hmain
  · exact MethodDecl.ssa h hids hc hm (isIdentifier_of_parse hparse hc hm)
      (Program.checkDecl_of_check hcheck hc hm) hmethod

/-- A method with a parameter, a local variable, a loop and a conjunction. -/
def countSource : String :=
  "class A\x7bpublic static void main(String[]a)\x7b\x7b\x7d\x7d\x7d " ++
    "class B\x7bint f(int n)\x7bint i;i=0;while(i<n&&!(n<i))i=i+1;return i;\x7d\x7d"

theorem functions_ssa_count : ∃ p a, parse countSource = .ok p ∧ Analysis.ofProgram p = .ok a ∧
    p.check a = .ok () ∧ ∃ M, p.lower a = .ok M ∧ ∀ f ∈ M.preamble.helpers ++ M.functions, f.Ssa := by
  have hvalid : (isValid countSource).toOption = some true := by decide +kernel
  obtain ⟨p, a, hparse, ha, hcheck⟩ := accepted_of_isValid hvalid
  exact ⟨p, a, hparse, ha, hcheck, functions_ssa hparse ha hcheck⟩

end Demitasse
