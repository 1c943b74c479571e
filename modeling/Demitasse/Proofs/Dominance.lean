import Mathlib.Data.List.Nodup
import Mathlib.Data.List.Pairwise
import Demitasse.Proofs.Operands

/-! Definitions and uses. Going through the lines of a function once, with a list of registers that are known
to have a value at every label, shows that every use comes behind its definition: what is known at the end of
a block covers what is known at the labels it branches to, so on every way to a block the registers known
there have been defined. As every register is defined once, its block lies on all of these ways. -/

namespace Demitasse

/-- The registers that are defined by instructions in a row. -/
def results (is : List Instr) : List Reg :=
  is.filterMap Instr.result?

@[simp] theorem results_nil : results [] = [] :=
  rfl

@[simp] theorem results_cons (i : Instr) (is : List Instr) : results (i :: is) = i.result?.toList ++ results is := by
  rw [results, List.filterMap_cons]
  cases i.result? <;> rfl

@[simp] theorem results_append (is js : List Instr) : results (is ++ js) = results is ++ results js :=
  List.filterMap_append

/-- The registers that a function starts with. -/
def IrFunction.params (f : IrFunction) : List Reg :=
  f.sig.params.map (.named ·.2)

namespace Code

/-- From known registers to known registers; between a branch and the next label nothing is said. `Λ` lists
what is known at labels. -/
inductive Flows (Λ : List (Label × List Reg)) : Option (List Reg) → Code → Option (List Reg) → Prop
  | nil (k : Option (List Reg)) : Flows Λ k [] k
  | label {l : Label} {known : List Reg} {c : Code} {k : Option (List Reg)} :
      (l, known) ∈ Λ → Flows Λ (some known) c k → Flows Λ none (.label l :: c) k
  | go {i : Instr} {known : List Reg} {c : Code} {k : Option (List Reg)} :
      i.isTerminator = false → i.reads ⊆ known →
      (∀ v ∈ i.incoming, ∀ r, v.1 = .reg r → ∃ there, (v.2, there) ∈ Λ ∧ r ∈ there) →
      Flows Λ (some (i.result?.toList ++ known)) c k → Flows Λ (some known) (.instr i :: c) k
  | leave {i : Instr} {known : List Reg} {c : Code} {k : Option (List Reg)} :
      i.isTerminator = true → i.reads ⊆ known →
      (∀ l ∈ i.targets, ∃ there, (l, there) ∈ Λ ∧ there ⊆ known) →
      Flows Λ none c k → Flows Λ (some known) (.instr i :: c) k

namespace Flows

variable {Λ Λ' : List (Label × List Reg)} {k k' k'' : Option (List Reg)} {c d : Code}

theorem mono (hsub : Λ ⊆ Λ') (h : Flows Λ k c k') : Flows Λ' k c k' := by
  induction h with
  | nil k => exact .nil k
  | label hl _ ih => exact .label (hsub hl) ih
  | go hi hreads hincoming _ ih =>
      refine .go hi hreads (fun v hv r hr => ?_) ih
      obtain ⟨there, hmem, hthere⟩ := hincoming v hv r hr
      exact ⟨there, hsub hmem, hthere⟩
  | leave hi hreads htargets _ ih =>
      refine .leave hi hreads (fun l hl => ?_) ih
      obtain ⟨there, hmem, hthere⟩ := htargets l hl
      exact ⟨there, hsub hmem, hthere⟩

theorem append (hc : Flows Λ k c k') (hd : Flows Λ k' d k'') : Flows Λ k (c ++ d) k'' := by
  induction hc with
  | nil k => exact hd
  | label hl _ ih => exact .label hl (ih hd)
  | go hi hreads hincoming _ ih => exact .go hi hreads hincoming (ih hd)
  | leave hi hreads htargets _ ih => exact .leave hi hreads htargets (ih hd)

end Flows

/-- The instructions of a block, of which something is known at its start. -/
structure Covers (Λ : List (Label × List Reg)) (known : List Reg) (body : List Instr) : Prop where
  reads : ∀ before i after, body = before ++ i :: after → ∀ r ∈ i.reads, r ∈ results before ∨ r ∈ known
  incoming : ∀ i ∈ body, ∀ v ∈ i.incoming, ∀ r, v.1 = .reg r → ∃ there, (v.2, there) ∈ Λ ∧ r ∈ there
  targets : ∀ i ∈ body, ∀ l ∈ i.targets, ∃ there, (l, there) ∈ Λ ∧ ∀ r ∈ there, r ∈ results body ∨ r ∈ known

namespace Covers

variable {Λ : List (Label × List Reg)} {known : List Reg} {body : List Instr} {i : Instr}

theorem nil : Covers Λ known [] :=
  ⟨by simp, List.forall_mem_nil _, List.forall_mem_nil _⟩

theorem mem_results_cons {r : Reg} (h : r ∈ results body ∨ r ∈ i.result?.toList ++ known) :
    r ∈ results (i :: body) ∨ r ∈ known := by
  rw [results_cons, List.mem_append]
  rw [List.mem_append] at h
  rwa [or_assoc, or_left_comm]

theorem go (hi : i.isTerminator = false) (hreads : i.reads ⊆ known)
    (hincoming : ∀ v ∈ i.incoming, ∀ r, v.1 = .reg r → ∃ there, (v.2, there) ∈ Λ ∧ r ∈ there)
    (h : Covers Λ (i.result?.toList ++ known) body) : Covers Λ known (i :: body) := by
  constructor
  · intro before j after hbody r hr
    cases before with
    | nil =>
        cases hbody
        exact Or.inr (hreads hr)
    | cons _ before =>
        cases hbody
        exact mem_results_cons (h.reads before j after rfl r hr)
  · exact List.forall_mem_cons.mpr ⟨hincoming, h.incoming⟩
  · refine List.forall_mem_cons.mpr ⟨?_, fun j hj l hl => ?_⟩
    · rw [Instr.targets_of_not_isTerminator hi]
      exact List.forall_mem_nil _
    · obtain ⟨there, hmem, hthere⟩ := h.targets j hj l hl
      exact ⟨there, hmem, fun r hr => mem_results_cons (hthere r hr)⟩

theorem leave (hi : i.isTerminator = true) (hreads : i.reads ⊆ known)
    (htargets : ∀ l ∈ i.targets, ∃ there, (l, there) ∈ Λ ∧ there ⊆ known) : Covers Λ known [i] := by
  constructor
  · intro before j after hbody r hr
    cases before with
    | nil =>
        cases hbody
        exact Or.inr (hreads hr)
    | cons _ before => simp at hbody
  · have hincoming : i.incoming = [] := by cases i <;> first | rfl | cases hi
    rw [List.forall_mem_singleton, hincoming]
    exact List.forall_mem_nil _
  · rw [List.forall_mem_singleton]
    intro l hl
    obtain ⟨there, hmem, hthere⟩ := htargets l hl
    exact ⟨there, hmem, fun r hr => Or.inr (hthere hr)⟩

end Covers

/-- The instructions in front of the first label, if `k` is known before them. -/
def Starts (Λ : List (Label × List Reg)) : Option (List Reg) → List Instr → Prop
  | some known, body => Covers Λ known body
  | none, body => body = []

/-- What is known at the labels covers their blocks. -/
theorem Flows.covers {Λ : List (Label × List Reg)} {k k' : Option (List Reg)} {c : Code} (h : Flows Λ k c k') :
    Starts Λ k c.body ∧
      ∀ b ∈ c.labelled, ∃ l known, b.label = some l ∧ (l, known) ∈ Λ ∧ Covers Λ known b.body := by
  induction h with
  | nil k =>
      cases k with
      | none => exact ⟨rfl, List.forall_mem_nil _⟩
      | some known => exact ⟨.nil, List.forall_mem_nil _⟩
  | label hl _ ih => exact ⟨rfl, List.forall_mem_cons.mpr ⟨⟨_, _, rfl, hl, ih.1⟩, ih.2⟩⟩
  | go hi hreads hincoming _ ih => exact ⟨.go hi hreads hincoming ih.1, ih.2⟩
  | @leave i known c _ hi hreads htargets _ ih =>
      refine ⟨?_, ih.2⟩
      change Covers Λ known (i :: c.body)
      rw [ih.1]
      exact .leave hi hreads htargets

/-- What is known at the start of a block. -/
def Enters (Λ : List (Label × List Reg)) (base : List Reg) : Option Label → List Reg → Prop
  | none, known => known = base
  | some l, known => (l, known) ∈ Λ

section
variable {Λ : List (Label × List Reg)} {base known : List Reg} {c : Code} {k : Option (List Reg)}
  {passed : List (Option Label)} {x : Option Label} {r : Reg}

theorem Flows.exists_enters (h : Flows Λ (some base) c k) :
    ∀ b ∈ c.blocks, ∃ known, Enters Λ base b.label known ∧ Covers Λ known b.body := by
  obtain ⟨hfirst, hrest⟩ := h.covers
  refine List.forall_mem_cons.mpr ⟨⟨base, rfl, hfirst⟩, fun b hb => ?_⟩
  obtain ⟨l, known, hlabel, hmem, hcovers⟩ := hrest b hb
  refine ⟨known, ?_, hcovers⟩
  rw [hlabel]
  exact hmem

theorem Enters.unique (hΛ : (Λ.map (·.1)).Nodup) {known' : List Reg} (h : Enters Λ base x known)
    (h' : Enters Λ base x known') : known = known' := by
  cases x with
  | none => exact Eq.trans h (Eq.symm h')
  | some l => exact congrArg Prod.snd (List.inj_on_of_nodup_map hΛ h h' rfl)

/-- On every way to a block, what is known at its start has been defined. -/
theorem Flows.defined_of_path (h : Flows Λ (some base) c k) (hΛ : (Λ.map (·.1)).Nodup)
    (hpath : c.Path (x :: passed)) (hx : Enters Λ base x known) (hr : r ∈ known) :
    r ∈ base ∨ ∃ d ∈ c.blocks, d.label ∈ passed ∧ r ∈ results d.body := by
  generalize hway : x :: passed = way at hpath
  induction hpath generalizing x passed known with
  | entry =>
      cases hway
      rw [show known = base from hx] at hr
      exact Or.inl hr
  | @step y rest l _ hedge ih =>
      cases hway
      obtain ⟨b, hb, hlabel, htarget⟩ := mem_edges.mp hedge
      obtain ⟨knownb, hentersb, hcovers⟩ := h.exists_enters b hb
      obtain ⟨i, hi, hl⟩ := List.mem_flatMap.mp htarget
      obtain ⟨there, hthere, hsub⟩ := hcovers.targets i hi l hl
      have heq : known = there := Enters.unique hΛ hx hthere
      rw [heq] at hr
      rcases hsub r hr with hresult | hknown
      · exact Or.inr ⟨b, hb, hlabel ▸ List.mem_cons_self, hresult⟩
      · rw [hlabel] at hentersb
        rcases ih hentersb hknown rfl with hbase | ⟨d, hd, hpassed, hresult⟩
        · exact Or.inl hbase
        · exact Or.inr ⟨d, hd, List.mem_cons_of_mem _ hpassed, hresult⟩

/-- A block that is reached is reached on a way that has not passed it before. -/
theorem Path.exists_first {way : List (Option Label)} (h : c.Path way) (hx : x ∈ way) :
    ∃ passed, c.Path (x :: passed) ∧ x ∉ passed := by
  induction h with
  | entry =>
      obtain rfl := List.mem_singleton.mp hx
      exact ⟨[], .entry, List.not_mem_nil⟩
  | @step y rest l hpath hedge ih =>
      by_cases hmem : x ∈ y :: rest
      · exact ih hmem
      · rcases List.mem_cons.mp hx with rfl | hx
        · exact ⟨y :: rest, hpath.step hedge, hmem⟩
        · exact absurd hx hmem

theorem results_instrs (c : Code) : results c.instrs = c.blocks.flatMap fun b => results b.body := by
  rw [results, ← flatMap_body_blocksFrom none, List.filterMap_flatMap]
  rfl

theorem eq_of_mem_results (honce : (results c.instrs).Nodup) {d e : Block} (hd : d ∈ c.blocks)
    (he : e ∈ c.blocks) (hrd : r ∈ results d.body) (hre : r ∈ results e.body) : d = e := by
  rw [results_instrs, List.nodup_flatMap] at honce
  by_contra hne
  have : Std.Symm (Function.onFun List.Disjoint fun b : Block => results b.body) :=
    ⟨fun _ _ h _ hd he => h he hd⟩
  exact honce.2.forall hd he hne hrd hre

/-- If registers are defined once, what is known at the start of a block is defined in blocks that dominate
it. -/
theorem Flows.dominated (h : Flows Λ (some base) c k) (hΛ : (Λ.map (·.1)).Nodup)
    (honce : (results c.instrs).Nodup) (hreach : c.Reachable x) (hx : Enters Λ base x known) (hr : r ∈ known) :
    r ∈ base ∨ ∃ d ∈ c.blocks, d.label ≠ x ∧ c.Dominates d.label x ∧ r ∈ results d.body := by
  by_cases hbase : r ∈ base
  · exact Or.inl hbase
  obtain ⟨way, hway⟩ := hreach
  obtain ⟨passed, hpath, hfirst⟩ := hway.exists_first List.mem_cons_self
  obtain ⟨d, hd, hpassed, hresult⟩ := (h.defined_of_path hΛ hpath hx hr).resolve_left hbase
  refine Or.inr ⟨d, hd, fun heq => hfirst (heq ▸ hpassed), ?_, hresult⟩
  intro other hother
  obtain ⟨e, he, hpassed, hresult'⟩ := (h.defined_of_path hΛ hother hx hr).resolve_left hbase
  rw [eq_of_mem_results honce hd he hresult hresult']
  exact List.mem_cons_of_mem _ hpassed

end

end Code

namespace IrFunction

/-- The definition of a register dominates the place behind the instructions `before` of a block: the register
is a parameter, or it is defined there or in another block that lies on every way to this one. -/
def DefinedAt (f : IrFunction) (r : Reg) (b : Block) (before : List Instr) : Prop :=
  r ∈ f.params ∨ r ∈ results before ∨
    ∃ d ∈ f.code.blocks, d.label ≠ b.label ∧ f.code.Dominates d.label b.label ∧ r ∈ results d.body

/-- A function in static single assignment form. -/
structure Ssa (f : IrFunction) : Prop where
  /-- no two registers are written alike, so each is defined once -/
  once : (f.definitions.map (·.1.text)).Nodup
  /-- registers and labels, which share a mark, are told apart -/
  apart : ∀ d ∈ f.definitions, ∀ l ∈ f.code.labels, d.1.text ≠ "%" ++ l.text
  reads : ∀ b ∈ f.code.blocks, ∀ before i after, b.body = before ++ i :: after →
    ∀ r ∈ i.reads, f.DefinedAt r b before
  /-- what a choice names is defined at the end of the block that control comes from -/
  incoming : ∀ b ∈ f.code.blocks, ∀ i ∈ b.body, ∀ v ∈ i.incoming, ∀ r, v.1 = .reg r →
    ∃ d ∈ f.code.blocks, d.label = some v.2 ∧ f.DefinedAt r d d.body

theorem definitions_fst (f : IrFunction) : f.definitions.map (·.1) = f.params ++ results f.code.instrs := by
  rw [definitions, List.map_append, List.map_map, Code.definitions, List.map_filterMap]
  rfl

/-- A function whose lines can be gone through is in static single assignment form, if its names differ. -/
theorem ssa {f : IrFunction} (hflow : f.code.ControlFlow) {Λ : List (Label × List Reg)}
    {k : Option (List Reg)} (h : f.code.Flows Λ (some f.params) k) (hΛ : Λ.map (·.1) = f.code.labels)
    (honce : (f.definitions.map (·.1.text)).Nodup)
    (hapart : ∀ d ∈ f.definitions, ∀ l ∈ f.code.labels, d.1.text ≠ "%" ++ l.text) : f.Ssa := by
  have hlabels : (Λ.map (·.1)).Nodup := by
    rw [hΛ]
    exact hflow.labels.of_map _
  have hresults : (results f.code.instrs).Nodup := by
    have hnodup : ((f.definitions.map (·.1)).map Reg.text).Nodup := by
      rw [List.map_map]
      exact honce
    rw [definitions_fst] at hnodup
    exact (hnodup.of_map _).of_append_right
  have hdefined : ∀ b ∈ f.code.blocks, ∀ before known r, Code.Enters Λ f.params b.label known →
      r ∈ results before ∨ r ∈ known → f.DefinedAt r b before := by
    intro b hb before known r hknown hr
    rcases hr with hr | hr
    · exact Or.inr (Or.inl hr)
    · rcases h.dominated hlabels hresults (hflow.reachable b hb) hknown hr with hparam | hblock
      · exact Or.inl hparam
      · exact Or.inr (Or.inr hblock)
  refine ⟨honce, hapart, ?_, ?_⟩
  · intro b hb before i after hbody r hr
    obtain ⟨known, hknown, hcovers⟩ := h.exists_enters b hb
    exact hdefined b hb before known r hknown (hcovers.reads before i after hbody r hr)
  · intro b hb i hi v hv r hr
    obtain ⟨known, _, hcovers⟩ := h.exists_enters b hb
    obtain ⟨there, hthere, hmem⟩ := hcovers.incoming i hi v hv r hr
    have hlabel : some v.2 ∈ f.code.labelled.map (·.label) := by
      rw [Code.labels_eq, ← hΛ, List.map_map]
      exact List.mem_map.mpr ⟨_, hthere, rfl⟩
    obtain ⟨d, hd, hlabel⟩ := List.mem_map.mp hlabel
    have hd : d ∈ f.code.blocks := List.mem_cons_of_mem _ hd
    refine ⟨d, hd, hlabel, hdefined d hd d.body there r ?_ (Or.inr hmem)⟩
    rw [hlabel]
    exact hthere

end IrFunction

end Demitasse
