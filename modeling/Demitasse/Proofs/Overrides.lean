import Demitasse.Proofs.Emission
import Demitasse.Proofs.Lowering
import Demitasse.Proofs.Operands

/-!
Overriding methods. The checks compare a method with the one that its superclass has, which may itself
override another; along a lineage the parameter types stay equal and the result type stays assignable. Types
that are assignable have one representation in code, so the functions that one slot holds in the tables of a
class and its subclasses have one type, and a call casts to it whichever class the object has. Where no class
declares a method twice, the method that the checks find for a class is the one that its layout has.
-/

namespace Demitasse

open Lower

namespace Forest

variable {F : Forest} {s t u : Ty}

theorem assignable_self {span : Span} (h : F.checkType t span = .ok ()) : F.assignable t t = true := by
  cases t with
  | object C => exact isSubclass_self (checkType_eq_ok.mp h C rfl)
  | _ => rfl

/-- Assignable types are equal or two classes. -/
theorem assignable_cases (h : F.assignable s t = true) :
    s = t ∨ ∃ A B, s = .object A ∧ t = .object B ∧ F.isSubclass A B = true := by
  cases s with
  | object A =>
      cases t with
      | object B => exact .inr ⟨A, B, rfl, rfl, h⟩
      | _ => exact .inl (of_decide_eq_true h)
  | _ => exact .inl (of_decide_eq_true h)

theorem assignable_trans (hordered : Ordered F.classes.reverse) (hst : F.assignable s t = true)
    (htu : F.assignable t u = true) : F.assignable s u = true := by
  rcases assignable_cases hst with rfl | ⟨A, B, rfl, rfl, hAB⟩
  · exact htu
  · rcases assignable_cases htu with rfl | ⟨B', C, hB, rfl, hBC⟩
    · exact hst
    · cases hB
      exact isSubclass_trans hordered hAB hBC

theorem ir_eq_of_assignable (h : F.assignable s t = true) : s.ir = t.ir := by
  rcases assignable_cases h with rfl | ⟨A, B, rfl, rfl, _⟩
  · rfl
  · rfl

end Forest

/-- A method may be called in the place of another: with the same arguments, and its result fits. -/
structure Forest.StandsFor (F : Forest) (s t : MethodSig) : Prop where
  formals : s.formalTypes = t.formalTypes
  ret : F.assignable s.ret t.ret = true

theorem MethodDecl.formalTypes_signature (m : MethodDecl) (className : String) :
    (m.signature className).formalTypes = m.formals.map (·.ty) := by
  rw [signature, MethodSig.formalTypes, List.map_map]
  rfl

theorem FnSig.operandTy_ofMethod (s : MethodSig) :
    (FnSig.ofMethod s).operandTy = .function s.ret.ir (.address :: s.formalTypes.map Ty.ir) false := by
  rw [operandTy, FnTy.operandTy, ty, ofMethod, MethodSig.formalTypes, List.map_cons, List.map_map, List.map_map]
  rfl

/-- The text of a function's type is a text of its type. -/
theorem FnSig.pointerText_eq_of_operandTy {s t : FnSig} (h : s.operandTy = t.operandTy) :
    s.pointerText = t.pointerText := by
  rw [operandTy, operandTy, FnTy.operandTy, FnTy.operandTy, OperandTy.function.injEq] at h
  have hty : s.ty = t.ty := FnTy.ext h.1 h.2.1
  rw [pointerText, pointerText, hty]

theorem Forest.StandsFor.operandTy_eq {F : Forest} {s t : MethodSig} (h : F.StandsFor s t) :
    (FnSig.ofMethod s).operandTy = (FnSig.ofMethod t).operandTy := by
  rw [FnSig.operandTy_ofMethod, FnSig.operandTy_ofMethod, ir_eq_of_assignable h.ret, h.formals]

namespace Analysis

variable {a : Analysis} {p : Program} {C D m : String} {sC sD : MethodSig}

/-- What a class has as a method is declared by a class of the program. -/
theorem Describes.declares_method (h : a.Describes p) (hm : a.scopes.classMethod? C m = some sC) :
    ∃ K ∈ p.classes, ∃ decl ∈ K.methods, decl.name = m ∧ sC = decl.signature K.name := by
  rw [h.classMethod?] at hm
  obtain ⟨K, hK, hm⟩ := List.exists_of_findSome?_eq_some hm
  obtain ⟨decl, hdecl, rfl⟩ := Option.map_eq_some_iff.mp hm
  refine ⟨K, h.mem_classes hK, decl, List.mem_of_find?_eq_some hdecl, ?_, rfl⟩
  simpa using List.find?_some hdecl

/-- A class has the method that it declares, or else the one of its superclass. -/
theorem Describes.classMethod?_cons (h : a.Describes p) {c : ClassDecl} {ancestors : List ClassDecl}
    (hL : a.forest.lineage D = c :: ancestors) :
    a.scopes.classMethod? D m = ((c.method? m).map (·.signature c.name)).or
      (c.superName.bind fun superName => a.scopes.classMethod? superName m) := by
  rw [h.classMethod?, hL, (h.lineage_eq_cons hL).2, List.findSome?_cons]
  cases c.method? m with
  | none =>
      cases c.superName with
      | none => rfl
      | some superName => exact (h.classMethod? superName m).symm
  | some decl => rfl

theorem Describes.standsFor_self (h : a.Describes p) (hdecls : ∀ c ∈ p.classes, c.checkDecl a = .ok ())
    (hm : a.scopes.classMethod? C m = some sC) : a.forest.StandsFor sC sC := by
  obtain ⟨K, hK, decl, hdecl, _, rfl⟩ := h.declares_method hm
  have htype := (MethodDecl.of_checkDecl (ClassDecl.checkDecl_of_mem (hdecls K hK) hdecl)).1
  exact ⟨rfl, Forest.assignable_self htype⟩

/-- One step down a lineage: the method of a class may stand for the one of its superclass. -/
theorem Describes.standsFor_super (h : a.Describes p) (hdecls : ∀ c ∈ p.classes, c.checkDecl a = .ok ())
    {c : ClassDecl} {ancestors : List ClassDecl} (hL : a.forest.lineage D = c :: ancestors) {superName : String}
    (hsuper : c.superName = some superName) {sS : MethodSig} (hS : a.scopes.classMethod? superName m = some sS) :
    ∃ sD, a.scopes.classMethod? D m = some sD ∧ a.forest.StandsFor sD sS := by
  rw [h.classMethod?_cons hL, hsuper, Option.bind_some, hS]
  cases hdecl : c.method? m with
  | none => exact ⟨sS, rfl, h.standsFor_self hdecls hS⟩
  | some decl =>
      have hmem : decl ∈ c.methods := List.mem_of_find?_eq_some hdecl
      have hname : decl.name = m := by simpa using List.find?_some hdecl
      have hoverride := (MethodDecl.of_checkDecl
        (ClassDecl.checkDecl_of_mem (hdecls c (h.lineage_eq_cons hL).1) hmem)).2.2
      obtain ⟨hformals, hret⟩ := MethodDecl.of_checkOverride hoverride hsuper (hname.symm ▸ hS)
      refine ⟨_, rfl, ?_, hret⟩
      rw [MethodDecl.formalTypes_signature, hformals]

/-- A class has the methods of its ancestors, or methods that may stand for them. -/
theorem Describes.standsFor_of_decls (h : a.Describes p) (hdecls : ∀ c ∈ p.classes, c.checkDecl a = .ok ())
    (hsub : a.forest.isSubclass D C = true) (hC : a.scopes.classMethod? C m = some sC) :
    ∃ sD, a.scopes.classMethod? D m = some sD ∧ a.forest.StandsFor sD sC := by
  -- The induction goes along the lineage of `D`: only its tails are lineages again.
  generalize hL : a.forest.lineage D = L
  induction L generalizing D with
  | nil =>
      obtain ⟨c, hc, _⟩ := Forest.isSubclass_iff.mp hsub
      rw [hL] at hc
      exact absurd hc List.not_mem_nil
  | cons d ancestors ih =>
      obtain ⟨c, hc, hname⟩ := Forest.isSubclass_iff.mp hsub
      rw [hL] at hc
      rcases List.mem_cons.mp hc with rfl | hc
      · have hDC : D = C := (Forest.name_of_lineage hL).symm.trans hname
        subst hDC
        exact ⟨sC, hC, h.standsFor_self hdecls hC⟩
      · have hancestors := (h.lineage_eq_cons hL).2
        cases hsuper : d.superName with
        | none =>
            rw [hancestors, hsuper] at hc
            exact absurd hc List.not_mem_nil
        | some superName =>
            have hlineage : a.forest.lineage superName = ancestors := by
              rw [hancestors, hsuper]
              rfl
            have hsub' : a.forest.isSubclass superName C = true :=
              Forest.isSubclass_iff.mpr ⟨c, hlineage ▸ hc, hname⟩
            obtain ⟨sS, hS, hSC⟩ := ih hsub' hlineage
            obtain ⟨sD, hD, hDS⟩ := h.standsFor_super hdecls hL hsuper hS
            refine ⟨sD, hD, hDS.formals.trans hSC.formals, ?_⟩
            exact Forest.assignable_trans h.ordered_forest hDS.ret hSC.ret

theorem Describes.standsFor (h : a.Describes p) (hcheck : p.check a = .ok ())
    (hsub : a.forest.isSubclass D C = true) (hC : a.scopes.classMethod? C m = some sC) :
    ∃ sD, a.scopes.classMethod? D m = some sD ∧ a.forest.StandsFor sD sC :=
  h.standsFor_of_decls (Program.check_eq_ok.mp hcheck).1 hsub hC

end Analysis

/-- Every call of `m` on an owner of static class `C` takes a function from slot `k` of the owner's method
table, casts it to the type of `sig`, and calls it with the owner as its first argument. -/
def Analysis.CastsCalls (a : Analysis) (C m : String) (k : Nat) (sig : FnSig) : Prop :=
  ∀ (className : Option String) (node : Node) (owner : Expr) (args : List Expr) (names : Names)
    ownerCode ownerValue ownerNames code value names',
    (owner.lower ⟨a, className⟩).run names = .ok ((ownerCode, ownerValue), ownerNames) →
    ownerValue.ty = .object C →
    ((Expr.call node owner m args).lower ⟨a, className⟩).run names = .ok ((code, value), names') →
    ∃ header table slotPtr entry function argsCode result actuals,
      code = ownerCode ++ Code.ofInstrs [
          .bitcast header .address ownerValue.operand (.ptr .tableAddress),
          .load table .tableAddress (.reg header),
          .elementPtr slotPtr .address (.reg table) [.const k],
          .load entry .address (.reg slotPtr),
          .methodCast function (.reg entry) sig.ty]
        ++ argsCode
        ++ [.instr (.call (some result) (.returns sig.ret) (.reg function)
          ((.address, ownerValue.operand) :: actuals))]

theorem Analysis.castsCalls {a : Analysis} {C m : String} {l : Layout} {k : Nat} {signature : MethodSig}
    (hl : a.catalog.layout? C = some l) (hk : l.slot? m = some k) (hsig : l.method? m = some signature) :
    a.CastsCalls C m k (.ofMethod signature) := by
  intro className node owner args names ownerCode ownerValue ownerNames code value names' howner hty h
  obtain ⟨_, _, _, slot, found, argsCode, actuals, names₂, howner', hdispatch, _, rfl, rfl, rfl⟩ :=
    Expr.lower_call_eq_ok h
  cases howner.symm.trans howner'
  obtain ⟨signature', hsig', hrun⟩ := run_dispatch (Γ := ⟨a, className⟩) hl hk ownerNames
  rw [hty] at hdispatch
  cases hrun.symm.trans hdispatch
  cases hsig.symm.trans hsig'
  exact ⟨_, _, _, _, _, argsCode, _, actuals, rfl⟩

/-- The function of a method that a class has is in the module, under the type of the method. -/
theorem Analysis.Describes.function_of_method {a : Analysis} {p : Program} (h : a.Describes p) {M : IrModule}
    (hM : p.lower a = .ok M) {D m : String} {sD : MethodSig} (hD : a.scopes.classMethod? D m = some sD) :
    ∃ f ∈ M.functions, f.sig = .ofMethod sD := by
  obtain ⟨K, hK, decl, hdecl, _, rfl⟩ := h.declares_method hD
  obtain ⟨f, hf, hlower⟩ := Program.exists_function hM hK hdecl
  obtain ⟨_, _, _, _, _, _, _, _, _, _, _, _, _, rfl⟩ := MethodDecl.lower_eq_ok hlower
  exact ⟨_, hf, rfl⟩

/-- A subclass has every method of a class, with the same parameter types, a result that fits, and hence one
type as a function. The tables of both have it in one slot; calls on the class cast what they find there to
that type, and the functions that the tables hold are defined at it. -/
theorem overrides_have_one_type {p : Program} {a : Analysis} (ha : Analysis.ofProgram p = .ok a)
    (hcheck : p.check a = .ok ()) {C D m : String} (hsub : a.forest.isSubclass D C = true) {sC : MethodSig}
    (hC : a.scopes.classMethod? C m = some sC) :
    ∃ sD, a.scopes.classMethod? D m = some sD ∧
      sD.formalTypes = sC.formalTypes ∧ a.forest.assignable sD.ret sC.ret = true ∧
      (FnSig.ofMethod sD).pointerText = (FnSig.ofMethod sC).pointerText ∧
      ∃ (l l' : Layout) (k : Nat), a.catalog.layout? C = some l ∧ a.catalog.layout? D = some l' ∧
        l.slot? m = some k ∧ a.CastsCalls C m k (.ofMethod sC) ∧
        (l'.methodTable D).entries[k]? = some (.ofMethod sD) ∧
        ∀ M, p.lower a = .ok M →
          (∀ t, t ∈ M.tables ∧ t.name = methodTableName D ↔ t = l'.methodTable D) ∧
          ∃ f ∈ M.functions, f.sig = .ofMethod sD ∧ f.sig.operandTy = (FnSig.ofMethod sC).operandTy := by
  have h := Analysis.describes ha
  obtain ⟨sD, hD, hstands⟩ := h.standsFor hcheck hsub hC
  have hty := hstands.operandTy_eq
  refine ⟨sD, hD, hstands.formals, hstands.ret, FnSig.pointerText_eq_of_operandTy hty, ?_⟩
  obtain ⟨l, k, hl, hk, hsig⟩ := h.exists_slot hcheck hC
  obtain ⟨l', hl', hk'⟩ := h.slot?_of_isSubclass hsub hl hk
  obtain ⟨l'', k', hl'', hk'', hsig'⟩ := h.exists_slot hcheck hD
  cases hl'.symm.trans hl''
  cases hk'.symm.trans hk''
  refine ⟨l, l', k, hl, hl', hk, Analysis.castsCalls hl hk hsig, Layout.entry_of_method? hk' hsig', ?_⟩
  intro M hM
  refine ⟨?_, ?_⟩
  · rw [Program.tables_of_lower hM]
    exact h.methodTable_unique hl'
  · obtain ⟨f, hf, hfsig⟩ := h.function_of_method hM hD
    exact ⟨f, hf, hfsig, by rw [hfsig, hty]⟩

/-- Between `Animal` and `Kitten`, the class `Cat` overrides a method with one that returns a `Cat`. -/
def litter : Program where
  main := ⟨⟨1, .origin⟩, "Main", "args", .block ⟨0, .origin⟩ []⟩
  classes :=
    [⟨⟨5, .origin⟩, "Animal", none, [], [mate 2 "Animal" "age"]⟩,
      ⟨⟨9, .origin⟩, "Cat", some "Animal", [], [mate 6 "Cat" "weight"]⟩,
      ⟨⟨10, .origin⟩, "Kitten", some "Cat", [], []⟩]
  span := .origin
where
  /-- a method with a parameter that returns its object -/
  mate (id : NodeId) (ret formal : String) : MethodDecl :=
    ⟨⟨id + 2, .origin⟩, .object ret, "mate", [⟨⟨id, .origin⟩, .int, formal⟩], [], [], .this ⟨id + 1, .origin⟩⟩

theorem overrides_have_one_type_litter : ∃ a, Analysis.ofProgram litter = .ok a ∧ litter.check a = .ok () ∧
    a.forest.isSubclass "Kitten" "Animal" = true ∧ ∃ sC, a.scopes.classMethod? "Animal" "mate" = some sC ∧
    ∃ sD, a.scopes.classMethod? "Kitten" "mate" = some sD ∧
      sD.formalTypes = sC.formalTypes ∧ a.forest.assignable sD.ret sC.ret = true ∧
      (FnSig.ofMethod sD).pointerText = (FnSig.ofMethod sC).pointerText ∧
      ∃ (l l' : Layout) (k : Nat), a.catalog.layout? "Animal" = some l ∧ a.catalog.layout? "Kitten" = some l' ∧
        l.slot? "mate" = some k ∧ a.CastsCalls "Animal" "mate" k (.ofMethod sC) ∧
        (l'.methodTable "Kitten").entries[k]? = some (.ofMethod sD) ∧
        ∀ M, litter.lower a = .ok M →
          (∀ t, t ∈ M.tables ∧ t.name = methodTableName "Kitten" ↔ t = l'.methodTable "Kitten") ∧
          ∃ f ∈ M.functions, f.sig = .ofMethod sD ∧ f.sig.operandTy = (FnSig.ofMethod sC).operandTy := by
  have hvalid : litter.validate = .ok () := rfl
  obtain ⟨a, ha, hcheck⟩ := bind_eq_ok.mp hvalid
  replace hcheck := mapError_eq_ok.mp hcheck
  have h := Analysis.describes ha
  have hsub : a.forest.isSubclass "Kitten" "Animal" = true := by rw [h.forest]; decide
  have hC : a.scopes.classMethod? "Animal" "mate" = some ((litter.mate 2 "Animal" "age").signature "Animal") := by
    rw [h.classMethod?, h.forest]
    rfl
  exact ⟨a, ha, hcheck, hsub, _, hC, overrides_have_one_type ha hcheck hsub hC⟩

/-- If no class declares a method name twice, scopes and layouts have the same method under every name, or both
have none. The checks see to it that no class does. -/
theorem method_lookups_agree {p : Program} {a : Analysis} (ha : Analysis.ofProgram p = .ok a) :
    (p.check a = .ok () → ∀ c ∈ p.classes, (c.methods.map (·.name)).Nodup) ∧
    ((∀ c ∈ p.classes, (c.methods.map (·.name)).Nodup) →
      (∀ C m, a.scopes.classMethod? C m = (a.catalog.layout? C).bind (·.method? m)) ∧
      ∀ c ∈ p.classes, ∃ l, a.catalog.layout? c.name = some l ∧ ∀ m, a.scopes.classMethod? c.name m = l.method? m) := by
  have h := Analysis.describes ha
  refine ⟨Program.methodNames_nodup, fun hnodup => ?_⟩
  have hagree : ∀ C m, a.scopes.classMethod? C m = (a.catalog.layout? C).bind (·.method? m) :=
    fun C m => (h.method?_eq hnodup C m).symm
  refine ⟨hagree, fun c hc => ?_⟩
  have hlineage : a.forest.lineage c.name ≠ [] := by
    rw [h.lineage, ne_eq, Forest.lineageIn_eq_nil, not_not, List.map_reverse, List.mem_reverse]
    exact List.mem_map_of_mem hc
  obtain ⟨l, hl⟩ := h.exists_layout? hlineage
  refine ⟨l, hl, fun m => ?_⟩
  rw [hagree, hl, Option.bind_some]

theorem method_lookups_agree_litter : ∃ a, Analysis.ofProgram litter = .ok a ∧
    (∀ c ∈ litter.classes, (c.methods.map (·.name)).Nodup) ∧
    (∀ C m, a.scopes.classMethod? C m = (a.catalog.layout? C).bind (·.method? m)) ∧
    ∀ c ∈ litter.classes, ∃ l, a.catalog.layout? c.name = some l ∧
      ∀ m, a.scopes.classMethod? c.name m = l.method? m := by
  have hvalid : litter.validate = .ok () := rfl
  obtain ⟨a, ha, hcheck⟩ := bind_eq_ok.mp hvalid
  obtain ⟨hnodup, hagree⟩ := method_lookups_agree ha
  have hlitter := hnodup (mapError_eq_ok.mp hcheck)
  exact ⟨a, ha, hlitter, hagree hlitter⟩

end Demitasse
