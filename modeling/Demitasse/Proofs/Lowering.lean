import Demitasse.Proofs.Dispatch
import Demitasse.Proofs.FieldAccess
import Demitasse.Proofs.Reading
import Demitasse.Proofs.Typing

/-! Checked programs have code. What the checks have found out about names, methods and classes through
scopes is what lowering looks up in layouts, so an expression with a type is lowered to a value of that
type. With it a source text is valid exactly if it is compiled. -/

namespace Demitasse

namespace Lower

section
variable {α β : Type} {P : α → Prop} {Q : β → Prop}

/-- Lowering succeeds, whatever names are used already, and with a result of which `P` holds. -/
def Succeeds (x : Lower α) (P : α → Prop) : Prop :=
  ∀ names, ∃ a names', x.run names = .ok (a, names') ∧ P a

theorem succeeds_pure {a : α} (h : P a) : Succeeds (pure a) P :=
  fun names => ⟨a, names, rfl, h⟩

theorem succeeds_bind {x : Lower α} {f : α → Lower β} (hx : Succeeds x P)
    (hf : ∀ a, P a → Succeeds (f a) Q) : Succeeds (x >>= f) Q := by
  intro names
  obtain ⟨a, names₁, ha, hP⟩ := hx names
  obtain ⟨b, names₂, hb, hQ⟩ := hf a hP names₁
  exact ⟨b, names₂, run_bind_eq_ok.mpr ⟨a, names₁, ha, hb⟩, hQ⟩

theorem succeeds_newTemp : Succeeds newTemp fun _ => True :=
  fun _ => ⟨_, _, rfl, trivial⟩

theorem succeeds_newLabel (stem : String) : Succeeds (newLabel stem) fun _ => True :=
  fun _ => ⟨_, _, rfl, trivial⟩

theorem succeeds_slot (name : String) (decl : NodeId) : Succeeds (slot name decl) fun _ => True :=
  fun _ => ⟨_, _, rfl, trivial⟩

end

theorem succeeds_elementPtr (array index : Operand) : Succeeds (elementPtr array index) fun _ => True :=
  fun _ => ⟨_, _, rfl, trivial⟩

theorem succeeds_allocArray (length : Operand) : Succeeds (allocArray length) fun r => r.2.ty = .intArray :=
  fun _ => ⟨_, _, rfl, rfl⟩

theorem succeeds_loadMethod (owner : Operand) (slot : Nat) (sig : FnSig) :
    Succeeds (loadMethod owner slot sig) fun _ => True :=
  fun _ => ⟨_, _, rfl, trivial⟩

end Lower

/-- Lowering finds what the checks found: methods, classes, and the fields that are named at some nodes. -/
structure Context.Provides (Γ : Context) (ids : List NodeId) : Prop where
  methods : ∀ C m signature, Γ.analysis.scopes.classMethod? C m = some signature →
    ∃ l k, Γ.analysis.catalog.layout? C = some l ∧ l.slot? m = some k ∧ l.method? m = some signature
  classes : ∀ C, Γ.analysis.forest.contains C = true → ∃ l, Γ.analysis.catalog.layout? C = some l
  fields : ∀ id ∈ ids, ∀ name b, Γ.analysis.scopes.resolve? id name = some b → b.storage = .field →
    ∃ C l start, Γ.className = some C ∧ Γ.analysis.catalog.layout? C = some l ∧
      l.fieldOffset? name = some start

section
variable {Γ : Context} {ids : List NodeId}

open Lower

theorem Lower.succeeds_variablePtr (hΓ : Γ.Provides ids) {id : NodeId} (hid : id ∈ ids) {name : String}
    {b : VarBinding} (hb : Γ.analysis.scopes.resolve? id name = some b) :
    Succeeds (variablePtr Γ name id) fun r => r.2.ty = b.ty := by
  intro names
  by_cases hfield : b.storage = .field
  · obtain ⟨C, l, start, hC, hl, hstart⟩ := hΓ.fields id hid name b hb hfield
    obtain ⟨_, _, _, hrun⟩ := run_variablePtr_field hC hl hstart hb hfield names
    exact ⟨_, _, hrun, rfl⟩
  · have hplace : ∃ r names', (place Γ.analysis.scopes name id).run names = .ok (.stack r b.ty, names') := by
      cases hs : b.storage with
      | field => exact absurd hs hfield
      | _ => exact ⟨_, _, by simp only [place, StateT.run, Names.place, hb, hs]; rfl⟩
    obtain ⟨r, names', hplace⟩ := hplace
    exact ⟨_, _, run_bind_eq_ok.mpr ⟨_, _, hplace, rfl⟩, rfl⟩

theorem Lower.succeeds_dispatch (hΓ : Γ.Provides ids) {C m : String} {signature : MethodSig}
    (h : Γ.analysis.scopes.classMethod? C m = some signature) :
    Succeeds (dispatch Γ (.object C) m) fun r => r.2 = signature := by
  intro names
  obtain ⟨l, k, hl, hk, hsig⟩ := hΓ.methods C m signature h
  obtain ⟨signature', hsig', hrun⟩ := run_dispatch hl hk names
  rw [hsig] at hsig'
  cases hsig'
  exact ⟨_, _, hrun, rfl⟩

theorem BinOp.ite_less {op : BinOp} (h : op ≠ .and) : (if op = .less then .boolean else .int) = op.resultTy := by
  cases op with
  | and => exact absurd rfl h
  | _ => rfl

mutual

/-- An expression with a type is lowered to a value of that type. -/
theorem Expr.succeeds_lower (hΓ : Γ.Provides ids) {assigned : List String} : ∀ (e : Expr) {ty : Ty},
    nodeIds e.visits ⊆ ids → e.typeOf Γ assigned = .ok ty → Succeeds (e.lower Γ) fun r => r.2.ty = ty
  | .binary node op left right, ty, hids, h => by
      rw [Expr.visits, nodeIds_cons_of_some rfl, nodeIds_append, List.cons_subset, List.append_subset] at hids
      obtain ⟨⟨leftTy, hleft, _⟩, ⟨rightTy, hright, _⟩, rfl⟩ := Expr.rule_of_typeOf h
      have hl := left.succeeds_lower hΓ hids.2.1 hleft
      have hr := right.succeeds_lower hΓ hids.2.2 hright
      by_cases hop : op = .and
      · rw [hop, Expr.lower]
        refine succeeds_bind hl fun _ _ => ?_
        refine succeeds_bind (succeeds_newLabel _) fun _ _ => ?_
        refine succeeds_bind (succeeds_newLabel _) fun _ _ => ?_
        refine succeeds_bind (succeeds_newLabel _) fun _ _ => ?_
        refine succeeds_bind (succeeds_newLabel _) fun _ _ => ?_
        refine succeeds_bind hr fun _ _ => ?_
        exact succeeds_bind succeeds_newTemp fun _ _ => succeeds_pure rfl
      · rw [Expr.lower]
        · refine succeeds_bind hl fun _ _ => ?_
          refine succeeds_bind hr fun _ _ => ?_
          exact succeeds_bind succeeds_newTemp fun _ _ => succeeds_pure (BinOp.ite_less hop)
        · exact hop
  | .element node array index, ty, hids, h => by
      rw [Expr.visits, nodeIds_cons_of_some rfl, nodeIds_append, List.cons_subset, List.append_subset] at hids
      obtain ⟨⟨arrayTy, harray, _⟩, ⟨indexTy, hindex, _⟩, rfl⟩ := Expr.rule_of_typeOf h
      rw [Expr.lower]
      refine succeeds_bind (array.succeeds_lower hΓ hids.2.1 harray) fun _ _ => ?_
      refine succeeds_bind (index.succeeds_lower hΓ hids.2.2 hindex) fun _ _ => ?_
      refine succeeds_bind (succeeds_elementPtr _ _) fun _ _ => ?_
      exact succeeds_bind succeeds_newTemp fun _ _ => succeeds_pure rfl
  | .length node array, ty, hids, h => by
      rw [Expr.visits, nodeIds_cons_of_some rfl, List.cons_subset] at hids
      obtain ⟨⟨arrayTy, harray, _⟩, rfl⟩ := Expr.rule_of_typeOf h
      rw [Expr.lower]
      refine succeeds_bind (array.succeeds_lower hΓ hids.2 harray) fun _ _ => ?_
      exact succeeds_bind succeeds_newTemp fun _ _ => succeeds_pure rfl
  | .call node owner method args, ty, hids, h => by
      rw [Expr.visits, nodeIds_cons_of_some rfl, nodeIds_append, List.cons_subset, List.append_subset] at hids
      obtain ⟨C, signature, howner, hmethod, _, hargs, rfl⟩ := Expr.rule_of_typeOf h
      rw [Expr.lower]
      refine succeeds_bind (owner.succeeds_lower hΓ hids.2.1 howner) ?_
      rintro ⟨ownerCode, operand, _⟩ rfl
      refine succeeds_bind (succeeds_dispatch hΓ hmethod) ?_
      rintro ⟨slot, signature⟩ rfl
      refine succeeds_bind (succeeds_loadMethod _ _ _) fun _ _ => ?_
      refine succeeds_bind (Expr.succeeds_lowerArgs hΓ args hids.2.2 hargs) fun _ _ => ?_
      exact succeeds_bind succeeds_newTemp fun _ _ => succeeds_pure rfl
  | .int _ _, ty, _, h => by
      obtain rfl := pure_eq_ok.mp h
      exact succeeds_pure rfl
  | .bool _ _, ty, _, h => by
      obtain rfl := pure_eq_ok.mp h
      exact succeeds_pure rfl
  | .var node name, ty, hids, h => by
      obtain ⟨b, hb, rfl⟩ := Expr.rule_of_typeOf h
      rw [Expr.lower]
      refine succeeds_bind (succeeds_variablePtr hΓ (hids List.mem_cons_self) hb) fun r hr => ?_
      exact succeeds_bind succeeds_newTemp fun _ _ => succeeds_pure hr
  | .this node, ty, _, h => by
      obtain ⟨C, hC, rfl⟩ := Expr.rule_of_typeOf h
      rw [Expr.lower, hC]
      exact succeeds_pure rfl
  | .newArray node size, ty, hids, h => by
      rw [Expr.visits, nodeIds_cons_of_some rfl, List.cons_subset] at hids
      obtain ⟨⟨sizeTy, hsize, _⟩, rfl⟩ := Expr.rule_of_typeOf h
      rw [Expr.lower]
      refine succeeds_bind (size.succeeds_lower hΓ hids.2 hsize) fun _ _ => ?_
      exact succeeds_bind (succeeds_allocArray _) fun r hr => succeeds_pure hr
  | .newObject node className, ty, _, h => by
      obtain ⟨hclass, rfl⟩ := Expr.rule_of_typeOf h
      obtain ⟨l, hl⟩ := hΓ.classes className hclass
      intro names
      obtain ⟨_, _, _, hrun⟩ := run_allocObject hl names
      rw [Expr.lower]
      exact ⟨_, _, hrun, rfl⟩
  | .not node operand, ty, hids, h => by
      rw [Expr.visits, nodeIds_cons_of_some rfl, List.cons_subset] at hids
      obtain ⟨⟨operandTy, hoperand, _⟩, rfl⟩ := Expr.rule_of_typeOf h
      rw [Expr.lower]
      refine succeeds_bind (operand.succeeds_lower hΓ hids.2 hoperand) fun _ _ => ?_
      exact succeeds_bind succeeds_newTemp fun _ _ => succeeds_pure rfl

theorem Expr.succeeds_lowerArgs (hΓ : Γ.Provides ids) {assigned : List String} :
    ∀ (args : List Expr) {formals : List Ty}, nodeIds (Expr.visitsAll args) ⊆ ids →
      Expr.checkArgs Γ assigned args formals = .ok () →
      Succeeds (Expr.lowerArgs Γ args (formals.map Ty.ir)) fun _ => True
  | [], formals, _, _ => by
      rw [Expr.lowerArgs]
      · exact succeeds_pure trivial
      · simp
  | arg :: args, [], _, _ => by
      rw [List.map_nil, Expr.lowerArgs]
      · exact succeeds_pure trivial
      · simp
  | arg :: args, formal :: formals, hids, h => by
      rw [Expr.visitsAll, nodeIds_append, List.append_subset] at hids
      obtain ⟨⟨argTy, harg, _⟩, hargs⟩ := Expr.checkArgs_cons_eq_ok h
      rw [List.map_cons, Expr.lowerArgs]
      refine succeeds_bind (arg.succeeds_lower hΓ hids.1 harg) fun _ _ => ?_
      exact succeeds_bind (Expr.succeeds_lowerArgs hΓ args hids.2 hargs) fun _ _ => succeeds_pure trivial

end

mutual

/-- A statement that passes the checks has code. -/
theorem Stmt.succeeds_lower (hΓ : Γ.Provides ids) : ∀ (s : Stmt) {assigned after : List String},
    nodeIds s.visits ⊆ ids → s.check Γ assigned = .ok after → Succeeds (s.lower Γ) fun _ => True
  | .block node body, assigned, after, hids, h => by
      rw [Stmt.visits, nodeIds_cons_of_some rfl, List.cons_subset] at hids
      obtain ⟨_, hbody⟩ := Stmt.rule_of_check h
      rw [Stmt.lower]
      exact Stmt.succeeds_lowerAll hΓ body hids.2 hbody
  | .ifElse node cond thenBranch elseBranch, assigned, after, hids, h => by
      rw [Stmt.visits, nodeIds_cons_of_some rfl, nodeIds_append, nodeIds_append, List.cons_subset,
        List.append_subset, List.append_subset] at hids
      obtain ⟨⟨condTy, hcond, _⟩, ⟨afterThen, hthen⟩, afterElse, helse⟩ := Stmt.rule_of_check h
      rw [Stmt.lower]
      refine succeeds_bind (cond.succeeds_lower hΓ hids.2.1.1 hcond) fun _ _ => ?_
      refine succeeds_bind (succeeds_newLabel _) fun _ _ => ?_
      refine succeeds_bind (succeeds_newLabel _) fun _ _ => ?_
      refine succeeds_bind (succeeds_newLabel _) fun _ _ => ?_
      refine succeeds_bind (thenBranch.succeeds_lower hΓ hids.2.1.2 hthen) fun _ _ => ?_
      exact succeeds_bind (elseBranch.succeeds_lower hΓ hids.2.2 helse) fun _ _ => succeeds_pure trivial
  | .loop node cond body, assigned, after, hids, h => by
      rw [Stmt.visits, nodeIds_cons_of_some rfl, nodeIds_append, List.cons_subset, List.append_subset] at hids
      obtain ⟨⟨condTy, hcond, _⟩, afterBody, hbody⟩ := Stmt.rule_of_check h
      rw [Stmt.lower]
      refine succeeds_bind (succeeds_newLabel _) fun _ _ => ?_
      refine succeeds_bind (succeeds_newLabel _) fun _ _ => ?_
      refine succeeds_bind (succeeds_newLabel _) fun _ _ => ?_
      refine succeeds_bind (cond.succeeds_lower hΓ hids.2.1 hcond) fun _ _ => ?_
      exact succeeds_bind (body.succeeds_lower hΓ hids.2.2 hbody) fun _ _ => succeeds_pure trivial
  | .print node arg, assigned, after, hids, h => by
      rw [Stmt.visits, nodeIds_cons_of_some rfl, List.cons_subset] at hids
      obtain ⟨argTy, harg, _⟩ := Stmt.rule_of_check h
      rw [Stmt.lower]
      exact succeeds_bind (arg.succeeds_lower hΓ hids.2 harg) fun _ _ => succeeds_pure trivial
  | .assign node target value, assigned, after, hids, h => by
      rw [Stmt.visits, nodeIds_cons_of_some rfl, List.cons_subset] at hids
      obtain ⟨b, hb, valueTy, hvalue, _⟩ := Stmt.rule_of_check h
      rw [Stmt.lower]
      refine succeeds_bind (value.succeeds_lower hΓ hids.2 hvalue) fun _ _ => ?_
      exact succeeds_bind (succeeds_variablePtr hΓ hids.1 hb) fun _ _ => succeeds_pure trivial
  | .assignElement node target index value, assigned, after, hids, h => by
      rw [Stmt.visits, nodeIds_cons_of_some rfl, nodeIds_append, List.cons_subset, List.append_subset] at hids
      obtain ⟨⟨b, hb, _⟩, ⟨indexTy, hindex, _⟩, valueTy, hvalue, _⟩ := Stmt.rule_of_check h
      rw [Stmt.lower]
      refine succeeds_bind (succeeds_variablePtr hΓ hids.1 hb) fun _ _ => ?_
      refine succeeds_bind succeeds_newTemp fun _ _ => ?_
      refine succeeds_bind (index.succeeds_lower hΓ hids.2.1 hindex) fun _ _ => ?_
      refine succeeds_bind (value.succeeds_lower hΓ hids.2.2 hvalue) fun _ _ => ?_
      exact succeeds_bind (succeeds_elementPtr _ _) fun _ _ => succeeds_pure trivial

theorem Stmt.succeeds_lowerAll (hΓ : Γ.Provides ids) : ∀ (ss : List Stmt) {assigned after : List String},
    nodeIds (Stmt.visitsAll ss) ⊆ ids → Stmt.checkAll Γ assigned ss = .ok after →
    Succeeds (Stmt.lowerAll Γ ss) fun _ => True
  | [], _, _, _, _ => by
      rw [Stmt.lowerAll]
      exact succeeds_pure trivial
  | s :: rest, assigned, after, hids, h => by
      rw [Stmt.visitsAll, nodeIds_append, List.append_subset] at hids
      obtain ⟨afterFirst, hs, hrest⟩ := Stmt.checkAll_cons_eq_ok h
      rw [Stmt.lowerAll]
      refine succeeds_bind (s.succeeds_lower hΓ hids.1 hs) fun _ _ => ?_
      exact succeeds_bind (Stmt.succeeds_lowerAll hΓ rest hids.2 hrest) fun _ _ => succeeds_pure trivial

end

theorem succeeds_lowerFormals (fs : List VarDecl) : Succeeds (lowerFormals fs) fun _ => True := by
  induction fs with
  | nil => exact succeeds_pure trivial
  | cons f rest ih =>
      refine succeeds_bind (succeeds_slot _ _) fun _ _ => ?_
      exact succeeds_bind ih fun _ _ => succeeds_pure trivial

theorem succeeds_lowerLocals (vs : List VarDecl) : Succeeds (lowerLocals vs) fun _ => True := by
  induction vs with
  | nil => exact succeeds_pure trivial
  | cons v rest ih =>
      refine succeeds_bind (succeeds_slot _ _) fun _ _ => ?_
      exact succeeds_bind ih fun _ _ => succeeds_pure trivial

theorem run'_eq_ok {α : Type} {x : Lower α} {P : α → Prop} (h : Succeeds x P) (names : Names) :
    ∃ a, x.run' names = .ok a := by
  obtain ⟨a, names', hrun, _⟩ := h names
  refine ⟨a, ?_⟩
  rw [StateT.run'_eq, hrun]
  rfl

end

/-! ### Programs -/

theorem ClassDecl.lastMethod?_eq {c : ClassDecl} (h : (c.methods.map (·.name)).Nodup) (name : String) :
    c.lastMethod? name = c.method? name := by
  rw [lastMethod?, method?]
  generalize c.methods = ms at h
  induction ms with
  | nil => rfl
  | cons m rest ih =>
      obtain ⟨hm, hrest⟩ := List.nodup_cons.mp h
      rw [List.reverse_cons, List.find?_append, ih hrest, List.find?_cons, List.find?_cons]
      by_cases hname : m.name = name
      · have hnone : rest.find? (fun m => m.name = name) = none := by
          rw [List.find?_eq_none]
          intro d hd hdname
          exact hm (List.mem_map.mpr ⟨d, hd, (of_decide_eq_true hdname).trans hname.symm⟩)
        simp [hnone, hname]
      · simp [hname]

namespace Analysis

variable {a : Analysis} {p : Program}

/-- If no class declares a method twice, scopes and layouts have the same methods. -/
theorem Describes.method?_eq (h : a.Describes p) (hnodup : ∀ c ∈ p.classes, (c.methods.map (·.name)).Nodup)
    (C name : String) : (a.catalog.layout? C).bind (·.method? name) = a.scopes.classMethod? C name := by
  rw [h.layout?, h.classMethod?]
  cases hl : Layout.ofLineage (a.forest.lineage C) with
  | none =>
      have hnil : a.forest.lineage C = [] := by
        by_contra hne
        rw [← ne_eq, ← Layout.ofLineage_isSome, hl] at hne
        cases hne
      rw [hnil]
      rfl
  | some l =>
      rw [Option.bind_some, Layout.method?, Layout.methods_of_ofLineage hl, Table.find?_along]
      have hmem : ∀ c ∈ a.forest.lineage C, c ∈ p.classes := fun c => h.mem_classes
      generalize a.forest.lineage C = L at hmem
      induction L with
      | nil => rfl
      | cons c ancestors ih =>
          obtain ⟨hc, hancestors⟩ := List.forall_mem_cons.mp hmem
          rw [List.findSome?_cons, List.findSome?_cons, ClassDecl.lookup_methodEntries,
            ClassDecl.lastMethod?_eq (hnodup c hc), ih hancestors]

/-- In a checked program, the layout of a class has a slot for each of its methods. -/
theorem Describes.exists_slot (h : a.Describes p) (hcheck : p.check a = .ok ()) {C m : String}
    {signature : MethodSig} (hm : a.scopes.classMethod? C m = some signature) :
    ∃ l k, a.catalog.layout? C = some l ∧ l.slot? m = some k ∧ l.method? m = some signature := by
  rw [← h.method?_eq (Program.methodNames_nodup hcheck)] at hm
  obtain ⟨l, hl, hm⟩ := Option.bind_eq_some_iff.mp hm
  have hslot : (l.slot? m).isSome := by
    rw [Layout.slot?_isSome, hm]
    rfl
  obtain ⟨k, hk⟩ := Option.isSome_iff_exists.mp hslot
  exact ⟨l, k, hl, hk, hm⟩

/-- In a checked program, lowering finds methods and classes everywhere. -/
theorem Describes.provides (h : a.Describes p) (hcheck : p.check a = .ok ()) {Γ : Context}
    (hΓ : Γ.analysis = a) {ids : List NodeId}
    (hfields : ∀ id ∈ ids, ∀ name b, a.scopes.resolve? id name = some b → b.storage = .field →
      ∃ C l start, Γ.className = some C ∧ a.catalog.layout? C = some l ∧ l.fieldOffset? name = some start) :
    Γ.Provides ids := by
  subst hΓ
  refine ⟨?_, ?_, hfields⟩
  · intro C m signature hm
    exact h.exists_slot hcheck hm
  · intro C hC
    exact h.exists_layout? (Forest.contains_iff.mp hC)

theorem Describes.provides_method (h : a.Describes p) (hcheck : p.check a = .ok ())
    (hids : (nodeIds p.visits).Nodup) {c : ClassDecl} (hc : c ∈ p.classes) {m : MethodDecl}
    (hm : m ∈ c.methods) : Context.Provides ⟨a, some c.name⟩ (nodeIds m.visits) := by
  refine h.provides hcheck rfl ?_
  intro id hid name b hb hfield
  obtain ⟨K, hK, f, hf, hbind⟩ := h.field_of_resolve? hids hc hm hid hb hfield
  obtain ⟨l, hl⟩ := h.exists_layout? (List.ne_nil_of_mem hK)
  obtain ⟨start, hstart⟩ := Layout.exists_fieldOffset? (h.fieldType?_of_mem hcheck hl hK hf)
  cases hbind
  exact ⟨c.name, l, start, rfl, hl, hstart⟩

theorem Describes.provides_main (h : a.Describes p) (hcheck : p.check a = .ok ())
    (hids : (nodeIds p.visits).Nodup) : Context.Provides ⟨a, none⟩ (nodeIds p.main.visits) := by
  refine h.provides hcheck rfl ?_
  intro id hid name b hb
  rw [h.resolve?_main hids hid] at hb
  cases hb

end Analysis

theorem MethodDecl.nodeIds_subset (m : MethodDecl) :
    nodeIds (Stmt.visitsAll m.body) ⊆ nodeIds m.visits ∧ nodeIds m.result.visits ⊆ nodeIds m.visits := by
  rw [MethodDecl.visits, nodeIds_cons_of_some rfl, nodeIds_cons_of_none rfl, nodeIds_append, nodeIds_append]
  constructor
  · exact fun id hid => List.mem_cons_of_mem _ (List.mem_append_left _ (List.mem_append_right _ hid))
  · exact fun id hid => List.mem_cons_of_mem _ (List.mem_append_right _ hid)

theorem MethodDecl.exists_lower {a : Analysis} {className : String} {m : MethodDecl}
    (hΓ : Context.Provides ⟨a, some className⟩ (nodeIds m.visits))
    (hcheck : m.checkBody a className = .ok ()) : ∃ f, m.lower a className = .ok f := by
  obtain ⟨assigned, hbody, resultTy, hresult, _⟩ := MethodDecl.checkBody_eq_ok.mp hcheck
  have hids := m.nodeIds_subset
  have hlower : Lower.Succeeds (m.lowerBody ⟨a, some className⟩) fun _ => True := by
    refine Lower.succeeds_bind (succeeds_lowerFormals _) fun _ _ => ?_
    refine Lower.succeeds_bind (succeeds_lowerLocals _) fun _ _ => ?_
    refine Lower.succeeds_bind (Stmt.succeeds_lowerAll hΓ m.body hids.1 hbody) fun _ _ => ?_
    exact Lower.succeeds_bind (m.result.succeeds_lower hΓ hids.2 hresult) fun _ _ => Lower.succeeds_pure trivial
  obtain ⟨code, hcode⟩ := run'_eq_ok hlower .fresh
  exact ⟨_, bind_eq_ok.mpr ⟨code, hcode, rfl⟩⟩

theorem MainClass.exists_lower {a : Analysis} {m : MainClass} {assigned : List String}
    (hΓ : Context.Provides ⟨a, none⟩ (nodeIds m.visits)) (hcheck : m.body.check ⟨a, none⟩ [] = .ok assigned) :
    ∃ f, m.lower a = .ok f := by
  have hids : nodeIds m.body.visits ⊆ nodeIds m.visits := fun id hid => List.mem_cons_of_mem _ hid
  obtain ⟨code, hcode⟩ := run'_eq_ok (m.body.succeeds_lower hΓ hids hcheck) .fresh
  exact ⟨_, bind_eq_ok.mpr ⟨code, hcode, rfl⟩⟩

/-- A checked program has code. -/
theorem Program.exists_lower {p : Program} {a : Analysis} (hids : (nodeIds p.visits).Nodup)
    (ha : Analysis.ofProgram p = .ok a) (hcheck : p.check a = .ok ()) : ∃ M, p.lower a = .ok M := by
  have h := Analysis.describes ha
  obtain ⟨_, ⟨assigned, hmain⟩, hbodies⟩ := Program.check_eq_ok.mp hcheck
  obtain ⟨main, hmain⟩ := MainClass.exists_lower (h.provides_main hcheck hids) hmain
  have hmethods : ∀ c ∈ p.classes, ∃ fs, c.methods.mapM (·.lower a c.name) = .ok fs := by
    intro c hc
    apply exists_mapM_eq_ok
    intro m hm
    exact MethodDecl.exists_lower (h.provides_method hcheck hids hc hm) (hbodies c hc m hm)
  obtain ⟨methods, hmethods⟩ := exists_mapM_eq_ok hmethods
  exact ⟨_, bind_eq_ok.mpr ⟨main, hmain, bind_eq_ok.mpr ⟨methods, hmethods, rfl⟩⟩⟩

theorem Program.compile_of_lower {p : Program} {a : Analysis} {M : IrModule} (ha : Analysis.ofProgram p = .ok a)
    (hcheck : p.check a = .ok ()) (hM : p.lower a = .ok M) : p.compile true = .ok M := by
  refine bind_eq_ok.mpr ⟨a, ha, ?_⟩
  rw [if_pos rfl]
  exact bind_eq_ok.mpr ⟨(), mapError_eq_ok.mpr hcheck, mapError_eq_ok.mpr hM⟩

/-- The code of a source text is the text of its module. -/
theorem compile_of_lower {source : String} {p : Program} {a : Analysis} {M : IrModule} (hparse : parse source = .ok p)
    (ha : Analysis.ofProgram p = .ok a) (hcheck : p.check a = .ok ()) (hM : p.lower a = .ok M) :
    compile source = .ok M.render :=
  bind_eq_ok.mpr ⟨p, hparse, bind_eq_ok.mpr ⟨M, Program.compile_of_lower ha hcheck hM, rfl⟩⟩

theorem Program.compile_of_valid {p : Program} (hids : (nodeIds p.visits).Nodup) (h : p.validate = .ok ()) :
    ∃ M, p.compile true = .ok M := by
  obtain ⟨a, ha, hcheck⟩ := bind_eq_ok.mp h
  rw [mapError_eq_ok] at hcheck
  obtain ⟨M, hM⟩ := Program.exists_lower hids ha hcheck
  exact ⟨M, Program.compile_of_lower ha hcheck hM⟩

theorem Program.compile_of_invalid {p : Program} {e : CompileError} (h : p.validate = .error e) :
    p.compile true = .error e ∧ ((∃ f, e = .hierarchy f) ∨ ∃ f, e = .typing f) := by
  rcases bind_eq_error.mp h with ha | ⟨a, ha, hcheck⟩
  · obtain ⟨f, _, rfl⟩ := Analysis.ofProgram_eq_error ha
    exact ⟨bind_eq_error.mpr (Or.inl ha), Or.inl ⟨f, rfl⟩⟩
  · obtain ⟨f, _, rfl⟩ := mapError_eq_error.mp hcheck
    refine ⟨bind_eq_error.mpr (Or.inr ⟨a, ha, ?_⟩), Or.inr ⟨f, rfl⟩⟩
    rw [if_pos rfl]
    exact bind_eq_error.mpr (Or.inl hcheck)

theorem parse_eq_error {source : String} {e : CompileError} (h : parse source = .error e) :
    (∃ f, e = .lexical f) ∨ ∃ f, e = .syntactic f := by
  rcases bind_eq_error.mp h with hscan | ⟨lexemes, _, h⟩
  · obtain ⟨f, _, rfl⟩ := mapError_eq_error.mp hscan
    exact Or.inl ⟨f, rfl⟩
  · split at h
    · cases h
    · rename_i f _ _
      cases h
      exact Or.inr ⟨f, rfl⟩

/-- What a valid source text has been through. -/
theorem accepted_of_isValid {source : String} (h : (isValid source).toOption = some true) :
    ∃ p a, parse source = .ok p ∧ Analysis.ofProgram p = .ok a ∧ p.check a = .ok () := by
  obtain ⟨p, hparse, hverdict⟩ := bind_eq_ok.mp (toOption_eq_some.mp h)
  cases hvalidate : p.validate with
  | error e =>
      simp only [hvalidate] at hverdict
      split at hverdict <;> cases hverdict
  | ok u =>
      obtain ⟨a, ha, hcheck⟩ := bind_eq_ok.mp hvalidate
      exact ⟨p, a, hparse, ha, mapError_eq_ok.mp hcheck⟩

/-- What a source text leads to: an error of reading it for both questions, or a verdict and code or the
reason why there is none. -/
theorem verdict_cases (source : String) :
    (∃ e, isValid source = .error e ∧ compile source = .error e ∧
      ((∃ f, e = .lexical f) ∨ ∃ f, e = .syntactic f)) ∨
    (∃ e, isValid source = .ok false ∧ compile source = .error e ∧
      ((∃ f, e = .hierarchy f) ∨ ∃ f, e = .typing f)) ∨
    ∃ ir, isValid source = .ok true ∧ compile source = .ok ir := by
  cases hparse : parse source with
  | error e =>
      refine Or.inl ⟨e, ?_, ?_, parse_eq_error hparse⟩
      · exact bind_eq_error.mpr (Or.inl hparse)
      · exact bind_eq_error.mpr (Or.inl hparse)
  | ok p =>
      cases hvalid : p.validate with
      | error e =>
          obtain ⟨hcompile, hkind⟩ := Program.compile_of_invalid hvalid
          have hrejection : e.isRejection = true := by
            rcases hkind with ⟨f, rfl⟩ | ⟨f, rfl⟩ <;> rfl
          refine Or.inr (Or.inl ⟨e, bind_eq_ok.mpr ⟨p, hparse, ?_⟩, ?_, hkind⟩)
          · simp only [hvalid, hrejection, if_true]
            rfl
          · exact bind_eq_error.mpr (Or.inr ⟨p, hparse, bind_eq_error.mpr (Or.inl hcompile)⟩)
      | ok u =>
          obtain ⟨M, hM⟩ := Program.compile_of_valid (nodeIds_nodup_of_parse hparse) hvalid
          refine Or.inr (Or.inr ⟨M.render, bind_eq_ok.mpr ⟨p, hparse, ?_⟩, ?_⟩)
          · simp only [hvalid]
            rfl
          · exact bind_eq_ok.mpr ⟨p, hparse, bind_eq_ok.mpr ⟨M, hM, rfl⟩⟩

/-- The verdict about a source text and its compilation agree. What passes the checks is lowered, and an
analysis fails only because of the class hierarchy; so a text is valid if and only if it is compiled, a
rejected program is rejected by both, and lowering never is the reason of a failure. -/
theorem valid_iff_compiles (source : String) :
    (∀ p a, parse source = .ok p → Analysis.ofProgram p = .ok a → p.check a = .ok () →
      ∃ M, p.lower a = .ok M) ∧
    (∀ p F, Forest.ofProgram p = .ok F →
      ∃ scopes catalog, ScopeTable.ofProgram p = .ok scopes ∧ Catalog.ofProgram p scopes = .ok catalog) ∧
    (∀ p e, Analysis.ofProgram p = .error e → ∃ f, Forest.ofProgram p = .error f ∧ e = .hierarchy f) ∧
    (isValid source = .ok true ↔ ∃ ir, compile source = .ok ir) ∧
    (isValid source = .ok false ↔
      ∃ e, compile source = .error e ∧ ((∃ f, e = .hierarchy f) ∨ ∃ f, e = .typing f)) ∧
    (∀ e, isValid source = .error e ↔
      compile source = .error e ∧ ((∃ f, e = .lexical f) ∨ ∃ f, e = .syntactic f)) ∧
    ∀ f, compile source ≠ .error (.lowering f) := by
  refine ⟨?_, ?_, fun p e => Analysis.ofProgram_eq_error, ?_⟩
  · intro p a hparse ha hcheck
    exact Program.exists_lower (nodeIds_nodup_of_parse hparse) ha hcheck
  · intro p F hF
    obtain ⟨a, ha, h⟩ := Analysis.ofProgram_of_forest hF
    obtain ⟨_, _, ha⟩ := bind_eq_ok.mp ha
    obtain ⟨scopes, hscopes, ha⟩ := bind_eq_ok.mp ha
    obtain ⟨catalog, hcatalog, _⟩ := bind_eq_ok.mp ha
    exact ⟨scopes, catalog, mapError_eq_ok.mp hscopes, mapError_eq_ok.mp hcatalog⟩
  · rcases verdict_cases source with ⟨e, hv, hc, ⟨f, rfl⟩ | ⟨f, rfl⟩⟩ | ⟨e, hv, hc, ⟨f, rfl⟩ | ⟨f, rfl⟩⟩ |
      ⟨ir, hv, hc⟩
    all_goals
      rw [hv, hc]
      simp

end Demitasse
