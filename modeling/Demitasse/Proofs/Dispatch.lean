import Demitasse.Lower.Program
import Demitasse.Proofs.Resolution
import Mathlib.Data.List.Nodup

/-! Method calls through slots. A call is made through the slot that the static class of its owner gives
to the method; the object's own class has the same slot for it, and the method table of that class holds
there the method of the nearest class that declares it. -/

namespace Demitasse

open Forest

/-- The class itself or its nearest ancestor that declares a method. -/
def Forest.implementer? (F : Forest) (name method : String) : Option ClassDecl :=
  (F.lineage name).find? fun c => (c.method? method).isSome

/-- The method that a class has under a name. Of two declarations the later one counts. -/
def ClassDecl.lastMethod? (c : ClassDecl) (name : String) : Option MethodDecl :=
  c.methods.reverse.find? fun m => m.name = name

theorem ClassDecl.lookup_methodEntries (c : ClassDecl) (name : String) :
    c.methodEntries.reverse.lookup name = (c.lastMethod? name).map (·.signature c.name) := by
  rw [methodEntries, ← List.map_reverse, ScopeTable.lookup_map, lastMethod?]

theorem ClassDecl.lastMethod?_isSome (c : ClassDecl) (name : String) :
    (c.lastMethod? name).isSome = (c.method? name).isSome := by
  rw [Bool.eq_iff_iff, lastMethod?, method?, List.find?_isSome, List.find?_isSome]
  simp

theorem findSome?_eq_bind_find? {α β : Type} (f : α → Option β) (l : List α) :
    l.findSome? f = (l.find? fun a => (f a).isSome).bind f := by
  induction l with
  | nil => rfl
  | cons a l ih =>
      rw [List.findSome?_cons, List.find?_cons, ih]
      cases h : f a with
      | none => rfl
      | some b => exact h.symm

/-- The method in the table of a lineage is the last one of the nearest class that declares it. -/
theorem find?_methodsAlong (L : List ClassDecl) (name : String) :
    (Table.along ClassDecl.methodEntries L).find? name =
      (L.find? fun c => (c.method? name).isSome).bind fun c =>
        (c.lastMethod? name).map (·.signature c.name) := by
  rw [Table.find?_along, findSome?_eq_bind_find?]
  simp only [ClassDecl.lookup_methodEntries, Option.isSome_map, ClassDecl.lastMethod?_isSome]

/-- Methods have slots, and what has a slot is a method. -/
theorem Layout.slot?_isSome (l : Layout) (m : String) : (l.slot? m).isSome ↔ (l.method? m).isSome := by
  rw [Layout.slot?, Layout.method?, Table.find?_isSome, Table.index?_isSome]

theorem Layout.exists_method? {l : Layout} {m : String} {k : Nat} (hk : l.slot? m = some k) :
    ∃ signature, l.method? m = some signature := by
  rw [← Option.isSome_iff_exists, ← Layout.slot?_isSome, hk]
  rfl

/-- In the slot of a method stands the function of the method. -/
theorem Layout.entry_of_method? {l : Layout} {D m : String} {k : Nat} {signature : MethodSig}
    (hk : l.slot? m = some k) (hsig : l.method? m = some signature) :
    (l.methodTable D).entries[k]? = some (.ofMethod signature) := by
  have hvalue : l.methods.values[k]? = l.methods.find? m := Table.getElem?_values hk
  rw [Layout.method?] at hsig
  rw [Layout.methodTable, List.getElem?_map, hvalue, hsig]
  rfl

theorem methodTableName_inj {C D : String} (h : methodTableName C = methodTableName D) : C = D := by
  rw [methodTableName, methodTableName, String.append_left_inj, String.append_right_inj] at h
  exact h

namespace Analysis

variable {a : Analysis} {p : Program}

theorem Describes.methodTables (h : a.Describes p) :
    a.catalog.methodTables = p.classes.map fun c => (p.layoutOf c).methodTable c.name := by
  rw [Catalog.methodTables, h.entries, List.map_map]
  rfl

/-- A class with a layout has one method table of its name, made from that layout. -/
theorem Describes.methodTable_unique (h : a.Describes p) {D : String} {l : Layout}
    (hl : a.catalog.layout? D = some l) (t : MethodTable) :
    (t ∈ a.catalog.methodTables ∧ t.name = methodTableName D) ↔ t = l.methodTable D := by
  rw [h.layout?, h.lineage] at hl
  have hD : D ∈ p.classes.reverse.map (·.name) := by
    by_contra hnot
    rw [(lineageIn_eq_nil _ D).mpr hnot] at hl
    exact absurd hl (by simp [Layout.ofLineage])
  obtain ⟨c, hc, rfl⟩ := List.mem_map.mp hD
  rw [List.mem_reverse] at hc
  have hlayout : p.layoutOf c = l := by
    rw [Program.ofLineage_eq h.ordered hc] at hl
    exact Option.some.inj hl
  rw [h.methodTables, List.mem_map]
  constructor
  · rintro ⟨⟨d, hd, rfl⟩, hname⟩
    obtain rfl : d = c := List.inj_on_of_nodup_map h.names_nodup hd hc (methodTableName_inj hname)
    rw [hlayout]
  · rintro rfl
    exact ⟨⟨c, hc, by rw [hlayout]⟩, rfl⟩

/-- A method has the same slot in a class and in its subclasses. -/
theorem Describes.slot?_of_isSubclass (h : a.Describes p) {C D m : String} {l : Layout} {k : Nat}
    (hsub : a.forest.isSubclass D C = true) (hC : a.catalog.layout? C = some l) (hk : l.slot? m = some k) :
    ∃ l', a.catalog.layout? D = some l' ∧ l'.slot? m = some k := by
  obtain ⟨_, l', _, hD⟩ := h.layouts_of_isSubclass hsub
  refine ⟨l', hD, ?_⟩
  rw [h.layout?] at hC hD
  apply Table.index?_of_prefix _ hk
  rw [Layout.methods_of_ofLineage hC, Layout.methods_of_ofLineage hD]
  exact Table.keys_along_prefix _ (h.lineage_suffix hsub)

/-- In the slot of a method stands the method of the nearest class that declares it. -/
theorem Describes.entry_of_slot? (h : a.Describes p) {D m : String} {l : Layout} {k : Nat}
    (hD : a.catalog.layout? D = some l) (hk : l.slot? m = some k) :
    ∃ K decl, a.forest.implementer? D m = some K ∧ K.lastMethod? m = some decl ∧
      (l.methodTable D).entries[k]? = some (.ofMethod (decl.signature K.name)) := by
  rw [h.layout?] at hD
  obtain ⟨signature, hsig⟩ := Layout.exists_method? hk
  have hfound := hsig
  rw [Layout.method?, Layout.methods_of_ofLineage hD, find?_methodsAlong] at hfound
  obtain ⟨K, hK, hmap⟩ := Option.bind_eq_some_iff.mp hfound
  obtain ⟨decl, hdecl, rfl⟩ := Option.map_eq_some_iff.mp hmap
  exact ⟨K, decl, hK, hdecl, Layout.entry_of_method? hk hsig⟩

end Analysis

/-- A table's entry for a method casts the method's function, which is named after class and method. -/
theorem tableEntry_ofMethod (decl : MethodDecl) (className : String) :
    (FnSig.ofMethod (decl.signature className)).tableEntry =
      "i8* bitcast (" ++ (FnSig.ofMethod (decl.signature className)).pointerText ++ " @" ++ className ++ "."
        ++ decl.name ++ " to i8*)" := by
  -- Stated for any texts: comparing these literals with one another by unfolding them takes seconds.
  have hregroup : ∀ front blank sign qualifier dot name : String,
      front ++ blank ++ (sign ++ (qualifier ++ dot ++ name)) =
        front ++ (blank ++ sign) ++ qualifier ++ dot ++ name := by
    intro front blank sign qualifier dot name
    simp only [String.append_assoc]
  exact congrArg (· ++ " to i8*)") (hregroup _ " " "@" className "." decl.name)

/-- Every table of a module is written out in its text. -/
theorem IrModule.render_of_mem {M : IrModule} {t : MethodTable} (ht : t ∈ M.tables) :
    ∃ before after, M.render = before ++ t.render ++ after := by
  obtain ⟨first, last, htables⟩ := List.append_of_mem ht
  rw [IrModule.render, htables, List.map_append, List.map_cons, String.join_append, String.join_cons]
  generalize M.preamble.render ++ "\n" = start
  generalize String.join (M.functions.map fun f => f.render ++ "\n") = functions
  refine ⟨start ++ String.join (first.map MethodTable.render),
    String.join (last.map MethodTable.render) ++ "\n" ++ functions, ?_⟩
  simp only [String.append_assoc]

theorem Program.tables_of_lower {p : Program} {a : Analysis} {M : IrModule} (h : p.lower a = .ok M) :
    M.tables = a.catalog.methodTables := by
  obtain ⟨_, _, h⟩ := bind_eq_ok.mp h
  obtain ⟨_, _, h⟩ := bind_eq_ok.mp h
  obtain rfl := pure_eq_ok.mp h
  rfl

/-- The code of a call through a slot of its owner's method table: the function is loaded from there and
called with the owner as its first argument. -/
def CallsSlot (slot : Nat) (owner : Operand) (code : Code) : Prop :=
  ∃ header table slotPtr entry function sig argsCode result actuals,
    code = Code.ofInstrs [
        .bitcast header .address owner (.ptr .tableAddress),
        .load table .tableAddress (.reg header),
        .elementPtr slotPtr .address (.reg table) [.const slot],
        .load entry .address (.reg slotPtr),
        .methodCast function (.reg entry) sig]
      ++ argsCode
      ++ [.instr (.call (some result) (.returns sig.ret) (.reg function) ((.address, owner) :: actuals))]

namespace Lower

/-- The slot of a method of a static class is found with the method's signature. -/
theorem run_dispatch {Γ : Context} {C m : String} {l : Layout} {k : Nat}
    (hl : Γ.analysis.catalog.layout? C = some l) (hk : l.slot? m = some k) (names : Names) :
    ∃ signature, l.method? m = some signature ∧
      (dispatch Γ (.object C) m).run names = .ok ((k, signature), names) := by
  obtain ⟨signature, hsig⟩ := Layout.exists_method? hk
  refine ⟨signature, hsig, ?_⟩
  simp only [dispatch, Ty.className?, hl, hk, hsig]
  rfl

theorem loadMethod_eq_ok {owner function : Operand} {slot : Nat} {sig : FnSig} {code : Code}
    {names names' : Names} (h : (loadMethod owner slot sig).run names = .ok ((code, function), names')) :
    ∃ header table slotPtr entry functionReg, function = .reg functionReg ∧
      code = Code.ofInstrs [
        .bitcast header .address owner (.ptr .tableAddress),
        .load table .tableAddress (.reg header),
        .elementPtr slotPtr .address (.reg table) [.const slot],
        .load entry .address (.reg slotPtr),
        .methodCast functionReg (.reg entry) sig.ty] := by
  obtain ⟨header, _, _, h⟩ := run_bind_eq_ok.mp h
  obtain ⟨table, _, _, h⟩ := run_bind_eq_ok.mp h
  obtain ⟨slotPtr, _, _, h⟩ := run_bind_eq_ok.mp h
  obtain ⟨entry, _, _, h⟩ := run_bind_eq_ok.mp h
  obtain ⟨functionReg, _, _, h⟩ := run_bind_eq_ok.mp h
  cases run_pure_eq_ok.mp h
  exact ⟨header, table, slotPtr, entry, functionReg, rfl, rfl⟩

/-- A call goes through the slot that the static class of its owner has for the method. -/
theorem callsSlot_of_lower {Γ : Context} {C m : String} {l : Layout} {k : Nat}
    (hl : Γ.analysis.catalog.layout? C = some l) (hk : l.slot? m = some k) {node : Node} {owner : Expr}
    {args : List Expr} {names ownerNames names' : Names} {ownerCode code : Code} {ownerValue value : Value}
    (howner : (owner.lower Γ).run names = .ok ((ownerCode, ownerValue), ownerNames))
    (hty : ownerValue.ty = .object C)
    (h : ((Expr.call node owner m args).lower Γ).run names = .ok ((code, value), names')) :
    ∃ callCode, code = ownerCode ++ callCode ∧ CallsSlot k ownerValue.operand callCode := by
  rw [Expr.lower] at h
  obtain ⟨⟨ownerCode', ownerValue'⟩, _, howner', h⟩ := run_bind_eq_ok.mp h
  cases howner.symm.trans howner'
  obtain ⟨⟨slot, signature⟩, _, hdispatch, h⟩ := run_bind_eq_ok.mp h
  obtain ⟨_, _, hslot⟩ := run_dispatch hl hk ownerNames
  rw [hty] at hdispatch
  cases hslot.symm.trans hdispatch
  obtain ⟨⟨methodCode, function⟩, _, hmethod, h⟩ := run_bind_eq_ok.mp h
  obtain ⟨header, table, slotPtr, entry, functionReg, rfl, rfl⟩ := loadMethod_eq_ok hmethod
  obtain ⟨⟨argsCode, actuals⟩, _, _, h⟩ := run_bind_eq_ok.mp h
  obtain ⟨result, _, _, h⟩ := run_bind_eq_ok.mp h
  cases run_pure_eq_ok.mp h
  refine ⟨_, ?_, header, table, slotPtr, entry, functionReg, (FnSig.ofMethod signature).ty, argsCode, result,
    actuals, rfl⟩
  simp only [List.append_assoc, FnSig.ty]

end Lower

/-- Every call of `m` on an owner of static class `C` goes through slot `k` of its owner's method table. -/
def Analysis.CallsThrough (a : Analysis) (C m : String) (k : Nat) : Prop :=
  ∀ (className : Option String) (node : Node) (owner : Expr) (args : List Expr) (names : Names),
    (∃ signature, (Lower.dispatch ⟨a, className⟩ (.object C) m).run names = .ok ((k, signature), names)) ∧
    ∀ ownerCode ownerValue ownerNames code value names',
      (owner.lower ⟨a, className⟩).run names = .ok ((ownerCode, ownerValue), ownerNames) →
      ownerValue.ty = .object C →
      ((Expr.call node owner m args).lower ⟨a, className⟩).run names = .ok ((code, value), names') →
      ∃ callCode, code = ownerCode ++ callCode ∧ CallsSlot k ownerValue.operand callCode

/-- A call goes through the slot that its owner's static class has for the method. Every subclass has the
same slot for it, and the subclass's method table, which the module writes out, holds there the method of
the nearest class that declares it. -/
theorem slot_reaches_nearest_method {p : Program} {a : Analysis} (ha : Analysis.ofProgram p = .ok a)
    {C D m : String} (hsub : a.forest.isSubclass D C = true) {l : Layout}
    (hl : a.catalog.layout? C = some l) {k : Nat} (hk : l.slot? m = some k) :
    ∃ (l' : Layout) (K : ClassDecl) (decl : MethodDecl) (table : MethodTable),
      a.catalog.layout? D = some l' ∧ l'.slot? m = some k ∧
      a.forest.implementer? D m = some K ∧ K.lastMethod? m = some decl ∧
      (∀ t, (t ∈ a.catalog.methodTables ∧ t.name = "@." ++ D ++ "_vtable") ↔ t = table) ∧
      (table.entries.map FnSig.tableEntry)[k]? =
        some ("i8* bitcast (" ++ (FnSig.ofMethod (decl.signature K.name)).pointerText ++ " @" ++ K.name
          ++ "." ++ m ++ " to i8*)") ∧
      (∀ M, p.lower a = .ok M → M.tables = a.catalog.methodTables ∧
        ∃ before after, M.render = before ++ table.render ++ after) ∧
      a.CallsThrough C m k := by
  have h := Analysis.describes ha
  obtain ⟨l', hl', hk'⟩ := h.slot?_of_isSubclass hsub hl hk
  obtain ⟨K, decl, hK, hdecl, hentry⟩ := h.entry_of_slot? hl' hk'
  refine ⟨l', K, decl, l'.methodTable D, hl', hk', hK, hdecl, h.methodTable_unique hl', ?_, ?_, ?_⟩
  · have hname : decl.name = m := by simpa using List.find?_some hdecl
    rw [List.getElem?_map, hentry, Option.map_some, tableEntry_ofMethod, hname]
  · intro M hM
    have htables := Program.tables_of_lower hM
    refine ⟨htables, IrModule.render_of_mem ?_⟩
    rw [htables]
    exact ((h.methodTable_unique hl' _).mpr rfl).1
  · intro className node owner args names
    obtain ⟨signature, _, hdispatch⟩ := Lower.run_dispatch (Γ := ⟨a, className⟩) hl hk names
    exact ⟨⟨signature, hdispatch⟩, fun _ _ _ _ _ _ => Lower.callsSlot_of_lower hl hk⟩

/-- A class `Cat` between `Animal` and `Kitten`: it overrides the second of the two methods of `Animal`, and
`Kitten` overrides the first and adds a third. -/
def pets : Program where
  main := ⟨⟨1, .origin⟩, "Main", "args", .block ⟨0, .origin⟩ []⟩
  classes :=
    [⟨⟨6, .origin⟩, "Animal", none, [], [answer 2 "speak", answer 4 "eat"]⟩,
      ⟨⟨9, .origin⟩, "Cat", some "Animal", [], [answer 7 "eat"]⟩,
      ⟨⟨14, .origin⟩, "Kitten", some "Cat", [], [answer 10 "play", answer 12 "speak"]⟩]
  span := .origin
where
  /-- a method that returns zero -/
  answer (id : NodeId) (name : String) : MethodDecl :=
    ⟨⟨id + 1, .origin⟩, .int, name, [], [], [], .int ⟨id, .origin⟩ 0⟩

theorem slot_reaches_nearest_method_pets : ∃ a l, Analysis.ofProgram pets = .ok a ∧
    a.forest.isSubclass "Kitten" "Animal" = true ∧ a.catalog.layout? "Animal" = some l ∧
    l.slot? "eat" = some 1 ∧
    ∃ (l' : Layout) (K : ClassDecl) (decl : MethodDecl) (table : MethodTable),
      a.catalog.layout? "Kitten" = some l' ∧ l'.slot? "eat" = some 1 ∧
      a.forest.implementer? "Kitten" "eat" = some K ∧ K.lastMethod? "eat" = some decl ∧
      (∀ t, (t ∈ a.catalog.methodTables ∧ t.name = "@." ++ "Kitten" ++ "_vtable") ↔ t = table) ∧
      (table.entries.map FnSig.tableEntry)[1]? =
        some ("i8* bitcast (" ++ (FnSig.ofMethod (decl.signature K.name)).pointerText ++ " @" ++ K.name
          ++ "." ++ "eat" ++ " to i8*)") ∧
      (∀ M, pets.lower a = .ok M → M.tables = a.catalog.methodTables ∧
        ∃ before after, M.render = before ++ table.render ++ after) ∧
      a.CallsThrough "Animal" "eat" 1 := by
  obtain ⟨a, ha, h⟩ := Analysis.ofProgram_of_forest (p := pets) (F := ⟨pets.classes⟩) rfl
  have hsub : a.forest.isSubclass "Kitten" "Animal" = true := by rw [h.forest]; decide
  have hl : a.catalog.layout? "Animal" = some (pets.layoutOf pets.classes[0]) := by
    rw [h.layout?, h.forest]; rfl
  have hk : (pets.layoutOf pets.classes[0]).slot? "eat" = some 1 := by decide
  exact ⟨a, _, ha, hsub, hl, hk, slot_reaches_nearest_method ha hsub hl hk⟩

end Demitasse
