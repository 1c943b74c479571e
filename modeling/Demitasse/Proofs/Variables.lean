import Mathlib.Data.List.Nodup
import Demitasse.Proofs.Emission
import Demitasse.Proofs.Lowering
import Demitasse.Proofs.RoundTrip

/-! The parameters and local variables of a method. They are declared at different nodes and have different
names, so each has a register of its own that holds its address, and a name that is not a field's is looked up
in the register of that name. -/

namespace Demitasse

/-- The variables of a method that are kept on the stack. -/
def MethodDecl.stackVars (m : MethodDecl) : List VarDecl :=
  m.formals ++ m.locals

theorem nodeIds_formals (fs : List VarDecl) : nodeIds (fs.flatMap VarDecl.formalVisits) = fs.map (·.node.id) := by
  induction fs with
  | nil => rfl
  | cons f fs ih =>
      rw [List.flatMap_cons, nodeIds_append, ih]
      rfl

theorem MethodDecl.nodup_stackVars {m : MethodDecl} (h : (nodeIds m.visits).Nodup) :
    (m.stackVars.map (·.node.id)).Nodup := by
  rw [visits, nodeIds_cons_of_some rfl, nodeIds_cons_of_none rfl, nodeIds_append, nodeIds_append, nodeIds_append,
    nodeIds_formals, ScopeTable.nodeIds_fields, List.nodup_cons, ← List.map_append] at h
  exact h.2.of_append_left.of_append_left

theorem Program.nodup_method {p : Program} (h : (nodeIds p.visits).Nodup) {c : ClassDecl} (hc : c ∈ p.classes)
    {m : MethodDecl} (hm : m ∈ c.methods) : (nodeIds m.visits).Nodup := by
  rw [visits, nodeIds_cons_of_none rfl, nodeIds_append, nodeIds_flatMap] at h
  have hclass := (List.nodup_flatMap.mp h.of_append_right).1 c hc
  rw [ClassDecl.visits, nodeIds_cons_of_some rfl, nodeIds_append, List.nodup_cons] at hclass
  have hmethods := hclass.2.of_append_right
  rw [nodeIds_flatMap] at hmethods
  exact (List.nodup_flatMap.mp hmethods).1 m hm

section
variable {α : Type} {D : List Token → α → Prop} {ts : List Token} {a : α} {as : List α}

theorem Many.exists_of_mem (h : Many D ts as) (ha : a ∈ as) : ∃ us, D us a ∧ us ⊆ ts := by
  induction h with
  | nil => cases ha
  | @cons us vs b bs hb _ ih =>
      rcases List.mem_cons.mp ha with rfl | ha
      · exact ⟨us, hb, List.subset_append_left _ _⟩
      · obtain ⟨ws, hws, hsub⟩ := ih ha
        exact ⟨ws, hws, List.Subset.trans hsub (List.subset_append_right _ _)⟩

theorem Separated.exists_of_mem (h : Separated D ts as) (ha : a ∈ as) : ∃ us, D us a ∧ us ⊆ ts := by
  induction h with
  | nil => cases ha
  | one hb =>
      obtain rfl := List.mem_singleton.mp ha
      exact ⟨_, hb, List.Subset.refl _⟩
  | @cons us vs b _ bs hb _ ih =>
      rcases List.mem_cons.mp ha with rfl | ha
      · exact ⟨us, hb, List.subset_append_left _ _⟩
      · obtain ⟨ws, hws, hsub⟩ := ih ha
        refine ⟨ws, hws, List.Subset.trans hsub ?_⟩
        exact List.Subset.trans (List.subset_cons_self _ _) (List.subset_append_right _ _)

end

/-- A word that is not a keyword. -/
def IsIdentifier (name : String) : Prop :=
  IsWord name.toList ∧ IsName name

theorem IsFormal.isIdentifier {ts : List Token} {v : VarDecl} (h : IsFormal ts v) (hts : ∀ t ∈ ts, t.Spelled) :
    IsIdentifier v.name := by
  obtain ⟨_, hname⟩ := h
  exact ⟨hts (.word v.name) (by simp), hname⟩

theorem IsVarDecl.isIdentifier {ts : List Token} {v : VarDecl} (h : IsVarDecl ts v)
    (hts : ∀ t ∈ ts, t.Spelled) : IsIdentifier v.name := by
  obtain ⟨_, hname⟩ := h
  exact ⟨hts (.word v.name) (by simp), hname⟩

theorem IsMethod.isIdentifier {ts : List Token} {m : MethodDecl} (h : IsMethod ts m)
    (hts : ∀ t ∈ ts, t.Spelled) : ∀ v ∈ m.stackVars, IsIdentifier v.name := by
  obtain ⟨_, _, _, hformals, hlocals, _, _⟩ := h
  rw [MethodDecl.stackVars, List.forall_mem_append]
  constructor
  · intro v hv
    obtain ⟨us, hus, hsub⟩ := hformals.exists_of_mem hv
    exact hus.isIdentifier fun t ht => hts t (by simp [hsub ht])
  · intro v hv
    obtain ⟨us, hus, hsub⟩ := hlocals.exists_of_mem hv
    exact hus.isIdentifier fun t ht => hts t (by simp [hsub ht])

/-- The variables of a program that was read are named by identifiers. -/
theorem isIdentifier_of_parse {source : String} {p : Program} (h : parse source = .ok p) {c : ClassDecl}
    (hc : c ∈ p.classes) {m : MethodDecl} (hm : m ∈ c.methods) : ∀ v ∈ m.stackVars, IsIdentifier v.name := by
  obtain ⟨ts, hp, hts⟩ := spelled_of_parse h
  obtain ⟨_, hclasses⟩ := hp
  obtain ⟨us, hclass, hus⟩ := hclasses.exists_of_mem hc
  obtain ⟨_, _, _, hmethods⟩ := hclass
  obtain ⟨vs, hmethod, hvs⟩ := hmethods.exists_of_mem hm
  refine hmethod.isIdentifier fun t ht => hts t (List.mem_append_right _ (hus ?_))
  simp [hvs ht]

/-- The registers of variables, by the nodes of their declarations. -/
def slotsOf (vs : List VarDecl) : List (NodeId × Reg) :=
  vs.map fun v => (v.node.id, .named v.name)

/-- The instructions that keep parameters on the stack. -/
def formalInstrs (fs : List VarDecl) : List Instr :=
  fs.flatMap fun f =>
    [.alloca (.named f.name) f.ty.ir, .store f.ty.ir (.reg (.param f.name)) (.reg (.named f.name))]

/-- The instructions that make room for local variables. -/
def localInstrs (vs : List VarDecl) : List Instr :=
  vs.map fun v => .alloca (.named v.name) v.ty.ir

theorem Names.slot_of_not_mem {names : Names} {decl : NodeId} (h : decl ∉ names.slots.map (·.1)) (name : String) :
    names.slot name decl = (.named name, { names with slots := (decl, .named name) :: names.slots }) := by
  have hlookup : names.slots.lookup decl = none := by
    rw [List.lookup_eq_none_iff]
    intro e he
    rw [bne_iff_ne]
    rintro rfl
    exact h (List.mem_map_of_mem he)
  rw [slot, hlookup]

theorem Names.slot_of_lookup {names : Names} {decl : NodeId} {r : Reg} (h : names.slots.lookup decl = some r)
    (name : String) : names.slot name decl = (r, names) := by
  rw [slot, h]

open Lower

/-- New declarations do not clash with those that were met, nor with each other. -/
def Names.Unmet (names : Names) (vs : List VarDecl) : Prop :=
  (vs.map (·.node.id)).Nodup ∧ ∀ v ∈ vs, v.node.id ∉ names.slots.map (·.1)

theorem Names.Unmet.cons {names : Names} {v : VarDecl} {vs : List VarDecl} (h : names.Unmet (v :: vs)) :
    names.slot v.name v.node.id =
        (.named v.name, { names with slots := (v.node.id, .named v.name) :: names.slots }) ∧
      Names.Unmet { names with slots := (v.node.id, .named v.name) :: names.slots } vs := by
  obtain ⟨hnodup, hfresh⟩ := h
  obtain ⟨hv, hnodup⟩ := List.nodup_cons.mp hnodup
  obtain ⟨hfirst, hrest⟩ := List.forall_mem_cons.mp hfresh
  refine ⟨slot_of_not_mem hfirst v.name, hnodup, fun w hw => ?_⟩
  rw [List.map_cons, List.mem_cons, not_or]
  exact ⟨fun heq => hv (List.mem_map.mpr ⟨w, hw, heq⟩), hrest w hw⟩

theorem run_lowerFormals {fs : List VarDecl} : ∀ {names : Names}, names.Unmet fs →
    (lowerFormals fs).run names =
      .ok (Code.ofInstrs (formalInstrs fs), { names with slots := (slotsOf fs).reverse ++ names.slots }) := by
  induction fs with
  | nil =>
      intro names _
      rfl
  | cons f rest ih =>
      intro names h
      obtain ⟨hslot, hrest⟩ := h.cons
      rw [lowerFormals, run_slot_bind, hslot, StateT.run_bind, ih hrest]
      simp only [slotsOf, List.map_cons, List.reverse_cons, List.append_assoc]
      rfl

theorem run_lowerLocals {vs : List VarDecl} : ∀ {names : Names}, names.Unmet vs →
    (lowerLocals vs).run names =
      .ok (Code.ofInstrs (localInstrs vs), { names with slots := (slotsOf vs).reverse ++ names.slots }) := by
  induction vs with
  | nil =>
      intro names _
      rfl
  | cons v rest ih =>
      intro names h
      obtain ⟨hslot, hrest⟩ := h.cons
      rw [lowerLocals, run_slot_bind, hslot, StateT.run_bind, ih hrest]
      simp only [slotsOf, List.map_cons, List.reverse_cons, List.append_assoc]
      rfl

/-- The names after the registers of a method's variables were handed out. -/
def MethodDecl.startNames (m : MethodDecl) : Names :=
  ⟨0, 0, (slotsOf m.stackVars).reverse⟩

/-- The instructions in front of a method's body. -/
def MethodDecl.prologue (m : MethodDecl) : List Instr :=
  formalInstrs m.formals ++ localInstrs m.locals

/-- The code of a method whose variables are declared at different nodes. -/
theorem MethodDecl.code_of_lower {a : Analysis} {className : String} {m : MethodDecl} {f : IrFunction}
    (hnodup : (m.stackVars.map (·.node.id)).Nodup) (h : m.lower a className = .ok f) :
    ∃ bodyCode names₁ resultCode result names₂,
      (Stmt.lowerAll ⟨a, some className⟩ m.body).run m.startNames = .ok (bodyCode, names₁) ∧
      (m.result.lower ⟨a, some className⟩).run names₁ = .ok ((resultCode, result), names₂) ∧
      f = ⟨.ofMethod (m.signature className), Code.ofInstrs m.prologue ++ (bodyCode ++ resultCode)
        ++ [.instr (.ret m.returnType.ir result.operand)]⟩ := by
  obtain ⟨formalsCode, names₁, localsCode, names₂, bodyCode, names₃, resultCode, result, names₄, hformals,
    hlocals, hbody, hresult, rfl⟩ := MethodDecl.lower_eq_ok h
  rw [stackVars, List.map_append, List.nodup_append] at hnodup
  have hunmet : Names.fresh.Unmet m.formals := ⟨hnodup.1, fun _ _ => List.not_mem_nil⟩
  cases (run_lowerFormals hunmet).symm.trans hformals
  have hunmet' : Names.Unmet ⟨0, 0, (slotsOf m.formals).reverse ++ []⟩ m.locals := by
    refine ⟨hnodup.2.1, fun v hv hmem => ?_⟩
    rw [List.append_nil, List.map_reverse, List.mem_reverse, slotsOf, List.map_map] at hmem
    exact hnodup.2.2 _ hmem _ (List.mem_map_of_mem hv) rfl
  cases (run_lowerLocals hunmet').symm.trans hlocals
  refine ⟨bodyCode, names₃, resultCode, result, names₄, ?_, hresult, ?_⟩
  · rw [startNames, stackVars, slotsOf, List.map_append, List.reverse_append]
    rw [List.append_nil] at hbody
    exact hbody
  · rw [prologue, Code.ofInstrs_append]
    simp only [List.append_assoc]

theorem lookup_of_mem {α β : Type} [BEq α] [LawfulBEq α] {es : List (α × β)} (hnodup : (es.map (·.1)).Nodup)
    {e : α × β} (he : e ∈ es) : es.lookup e.1 = some e.2 := by
  induction es with
  | nil => cases he
  | cons d es ih =>
      obtain ⟨hd, hnodup⟩ := List.nodup_cons.mp hnodup
      rw [List.lookup_cons]
      rcases List.mem_cons.mp he with rfl | he
      · simp
      · have hne : e.1 ≠ d.1 := fun heq => hd (List.mem_map.mpr ⟨e, he, heq⟩)
        rw [beq_false_of_ne hne]
        exact ih hnodup he

theorem MethodDecl.lookup_startNames {m : MethodDecl} (hnodup : (m.stackVars.map (·.node.id)).Nodup) {v : VarDecl}
    (hv : v ∈ m.stackVars) : m.startNames.slots.lookup v.node.id = some (.named v.name) := by
  apply lookup_of_mem (e := (v.node.id, Reg.named v.name))
  · rw [startNames, List.map_reverse, List.nodup_reverse, slotsOf, List.map_map]
    exact hnodup
  · exact List.mem_reverse.mpr (List.mem_map.mpr ⟨v, hv, rfl⟩)

/-- A name that does not stand for a field is the name of a variable. -/
theorem Analysis.Describes.exists_stackVar {a : Analysis} {p : Program} (h : a.Describes p)
    (hids : (nodeIds p.visits).Nodup) {c : ClassDecl} (hc : c ∈ p.classes) {m : MethodDecl} (hm : m ∈ c.methods)
    {id : NodeId} (hid : id ∈ nodeIds m.visits) {name : String} {b : VarBinding}
    (hb : a.scopes.resolve? id name = some b) (hstack : b.storage ≠ .field) :
    ∃ v ∈ m.stackVars, v.name = name ∧ v.node.id = b.decl ∧ v.ty = b.ty := by
  rw [h.resolve? hids hc hm hid] at hb
  rcases Option.or_eq_some_iff.mp hb with hvar | ⟨_, hlineage⟩
  · rcases List.mem_append.mp (Table.mem_of_lookup hvar) with hmem | hmem
    · obtain ⟨v, hv, hbind⟩ := List.mem_map.mp hmem
      cases hbind
      exact ⟨v, List.mem_append_left _ hv, rfl, rfl, rfl⟩
    · obtain ⟨v, hv, hbind⟩ := List.mem_map.mp hmem
      cases hbind
      exact ⟨v, List.mem_append_right _ hv, rfl, rfl, rfl⟩
  · obtain ⟨K, _, hlookup⟩ := List.exists_of_findSome?_eq_some hlineage
    obtain ⟨f, _, hbind⟩ := List.mem_map.mp (Table.mem_of_lookup hlookup)
    cases hbind
    exact absurd rfl hstack

end Demitasse
