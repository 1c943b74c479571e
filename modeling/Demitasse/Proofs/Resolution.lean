import Demitasse.Analysis
import Demitasse.Proofs.Numbering
import Demitasse.Proofs.Scopes

/-! What an analysis knows about a program. Forest, scopes and layouts are found together or not at all.
If no two nodes share an identity, every node lies in the scope of its method or class, and so the
meaning of names, the methods and the layouts are all determined by lineages. -/

namespace Demitasse

namespace ScopeTable

open Forest

theorem nodeIds_fields (fs : List VarDecl) : nodeIds (fs.flatMap VarDecl.visits) = fs.map (·.node.id) := by
  induction fs with
  | nil => rfl
  | cons f fs ih => rw [List.flatMap_cons, nodeIds_append, ih]; rfl

theorem keys_methodScopes (ms : List MethodDecl) (i : ScopeId) :
    ((ms.zipIdx i).flatMap fun (m, i) => (nodeIds m.visits).map (·, i)).map (·.1) =
      nodeIds (ms.flatMap MethodDecl.visits) := by
  induction ms generalizing i with
  | nil => rfl
  | cons m ms ih =>
      rw [List.zipIdx_cons, List.flatMap_cons, List.flatMap_cons, List.map_append, ih, nodeIds_append,
        List.map_map]
      exact congrArg (· ++ _) (List.map_id _)

/-- A class gives a scope to each of its nodes. -/
theorem keys_nodeScopes (c : ClassDecl) (k : ScopeId) :
    (c.nodeScopes k).map (·.1) = nodeIds c.visits := by
  rw [ClassDecl.nodeScopes, List.map_append, keys_methodScopes, List.map_map, ClassDecl.visits,
    nodeIds_cons_of_some rfl, nodeIds_append, nodeIds_fields]
  exact congrArg (· ++ _) (List.map_id _)

/-- Of the nodes of a class, those of a method lie in the scope of that method. -/
theorem mem_nodeScopes_of_method {c : ClassDecl} {k : ScopeId} {j : Nat} {m : MethodDecl}
    (hm : c.methods[j]? = some m) {id : NodeId} (hid : id ∈ nodeIds m.visits) :
    (id, k + 1 + j) ∈ c.nodeScopes k := by
  apply List.mem_append_right
  refine List.mem_flatMap.mpr ⟨(m, k + 1 + j), ?_, List.mem_map_of_mem hid⟩
  exact List.mk_mem_zipIdx_iff_le_and_getElem?_sub.mpr ⟨by omega, by simpa using hm⟩

theorem pairwise_of_nodup {l : List (NodeId × ScopeId)} (hnodup : (l.map (·.1)).Nodup) :
    l.Pairwise fun a b => ¬ compare a.1 b.1 = .eq := by
  rw [List.Nodup, List.pairwise_map] at hnodup
  exact hnodup.imp fun hne heq => hne (Std.LawfulEqCmp.eq_of_compare heq)

/-- Every node lies in the scope that its class, or the main class, gives it. -/
structure Places (t : ScopeTable) (main : MainClass) (rev : List ClassDecl) : Prop where
  main : ∀ id ∈ nodeIds main.visits, t.scopeOf? id = some 1
  classes : ∀ c ∈ rev, ∀ k, t.classScope? c.name = some k → ∀ e ∈ c.nodeScopes k, t.scopeOf? e.1 = some e.2

/-- The identities of the nodes of a main class and of classes. -/
def nodesOf (main : MainClass) (classes : List ClassDecl) : List NodeId :=
  nodeIds main.visits ++ classes.flatMap fun c => nodeIds c.visits

theorem places_ofMain {main : MainClass} (hnodup : (nodeIds main.visits).Nodup) :
    (ofMain main).Places main [] where
  main id hid := by
    have hkeys : (((nodeIds main.visits).map (·, 1)).map (·.1) : List NodeId) = nodeIds main.visits := by
      rw [List.map_map]
      exact List.map_id _
    exact Std.TreeMap.getElem?_ofList_of_mem Std.ReflCmp.compare_self
      (pairwise_of_nodup (hkeys.symm ▸ hnodup)) (List.mem_map_of_mem hid)
  classes _ hc := absurd hc List.not_mem_nil

/-- The nodes of a class lie where it puts them. -/
theorem scopeOf?_withClass {t : ScopeTable} {c : ClassDecl} (hnodup : (nodeIds c.visits).Nodup)
    (outer : List ScopeId) (inherited : Option Layout) {e : NodeId × ScopeId} (he : e ∈ c.nodeScopes t.scopes.size) :
    (t.withClass c outer inherited).scopeOf? e.1 = some e.2 :=
  Std.TreeMap.getElem?_insertMany_list_of_mem Std.ReflCmp.compare_self
    (pairwise_of_nodup (by rw [keys_nodeScopes]; exact hnodup)) he

/-- Other nodes stay where they are. -/
theorem scopeOf?_withClass_of_notMem (t : ScopeTable) {c : ClassDecl} (outer : List ScopeId)
    (inherited : Option Layout) {id : NodeId} (hid : id ∉ nodeIds c.visits) :
    (t.withClass c outer inherited).scopeOf? id = t.scopeOf? id := by
  apply Std.TreeMap.getElem?_insertMany_list_of_contains_eq_false
  rw [keys_nodeScopes, ← Bool.not_eq_true, List.contains_iff_mem]
  exact hid

/-- A class with new nodes leaves the others where they are. -/
theorem Places.withClass {t : ScopeTable} {main : MainClass} {rev : List ClassDecl} {c : ClassDecl}
    (h : t.Places main rev) (hname : c.name ∉ rev.map (·.name))
    (hnodup : (nodeIds c.visits ++ nodesOf main rev).Nodup) (outer : List ScopeId)
    (inherited : Option Layout) : (t.withClass c outer inherited).Places main (c :: rev) := by
  obtain ⟨hown, _, hdisjoint⟩ := List.nodup_append.mp hnodup
  have hold : ∀ id ∈ nodesOf main rev, (t.withClass c outer inherited).scopeOf? id = t.scopeOf? id :=
    fun id hid => scopeOf?_withClass_of_notMem t outer inherited fun hmem => hdisjoint id hmem id hid rfl
  refine ⟨?_, ?_⟩
  · intro id hid
    rw [hold id (List.mem_append_left _ hid)]
    exact h.main id hid
  · intro d hd k hk e he
    rw [classScope?, ScopeTable.withClass, Table.lookup_cons] at hk
    rcases List.mem_cons.mp hd with rfl | hd
    · rw [if_pos rfl] at hk
      obtain rfl : t.scopes.size = k := Option.some.inj hk
      exact scopeOf?_withClass hown outer inherited he
    · have hne : ¬ d.name = c.name := fun heq => hname (heq ▸ List.mem_map_of_mem hd)
      rw [if_neg hne] at hk
      have hmem : e.1 ∈ nodeIds d.visits := by
        rw [← keys_nodeScopes d k]
        exact List.mem_map_of_mem he
      rw [hold e.1 (List.mem_append_right _ (List.mem_flatMap.mpr ⟨d, hd, hmem⟩))]
      exact h.classes d hd k hk e he

theorem places_foldlM (cs : List ClassDecl) {main : MainClass} : ∀ {t t' : ScopeTable} {rev : List ClassDecl},
    t.Places main rev → Ordered (cs.reverse ++ rev) → (nodesOf main (cs.reverse ++ rev)).Nodup →
    cs.foldlM addClass t = .ok t' → t'.Places main (cs.reverse ++ rev) := by
  induction cs with
  | nil =>
      rintro t t' rev h - - ⟨⟩
      exact h
  | cons c cs ih =>
      intro t t' rev h hordered hnodup ht'
      rw [List.reverse_cons, List.append_assoc, List.singleton_append] at hordered hnodup ⊢
      rw [List.foldlM_cons] at ht'
      obtain ⟨t₁, ht₁, ht'⟩ := bind_eq_ok.mp ht'
      obtain ⟨⟨outer, inherited⟩, -, ht₁⟩ := bind_eq_ok.mp ht₁
      obtain rfl := pure_eq_ok.mp ht₁
      refine ih (h.withClass hordered.of_append.1 ?_ outer inherited) hordered hnodup ht'
      -- the nodes of `c` and of what stands before it are among those of the whole list
      have hsub : (nodesOf main (c :: rev)).Sublist (nodesOf main (cs.reverse ++ c :: rev)) := by
        rw [nodesOf, nodesOf, List.flatMap_append]
        exact (List.sublist_append_right _ _).append_left _
      apply (hsub.nodup hnodup).perm
      rw [nodesOf, nodesOf, List.flatMap_cons]
      exact List.perm_append_comm_assoc _ _ _

/-- In a program of distinct nodes, every node lies in the scope that its class gives it. -/
theorem places_ofProgram {p : Program} {t : ScopeTable} (hordered : Ordered p.classes.reverse)
    (hnodup : (nodeIds p.visits).Nodup) (ht : ofProgram p = .ok t) :
    t.Places p.main p.classes.reverse := by
  have hnodes : (nodesOf p.main p.classes.reverse).Nodup := by
    apply hnodup.perm
    rw [Program.visits, nodeIds_cons_of_none rfl, nodeIds_append, nodeIds_flatMap, nodesOf]
    exact (List.reverse_perm p.classes).symm.flatMap_right _ |>.append_left _
  have hmain : (nodeIds p.main.visits).Nodup := (List.nodup_append.mp hnodes).1
  simpa using places_foldlM p.classes (places_ofMain hmain) (by simpa using hordered)
    (by simpa using hnodes) ht

end ScopeTable

open Forest

/-- The layout of a class of a program, whose lineage stands among the declarations. -/
def Program.layoutOf (p : Program) (c : ClassDecl) : Layout :=
  .ofClass c (Layout.ofLineage (c.superName.elim [] (lineageIn p.classes.reverse)))

theorem Program.ofLineage_eq {p : Program} (hordered : Ordered p.classes.reverse) {c : ClassDecl}
    (hc : c ∈ p.classes) :
    Layout.ofLineage (lineageIn p.classes.reverse c.name) = some (p.layoutOf c) := by
  rw [lineageIn_of_mem hordered (List.mem_reverse.mpr hc)]
  rfl

theorem Catalog.foldlM_add {t : ScopeTable} {main : MainClass} {rev : List ClassDecl} (ht : t.Holds main rev)
    {layoutOf : ClassDecl → Layout} {cs : List ClassDecl}
    (hlayout : ∀ c ∈ cs, t.layout? c.name = some (layoutOf c)) (catalog : Catalog) :
    cs.foldlM (add t) catalog =
      .ok ⟨catalog.entries.insertAll (cs.map fun c => (c.name, ⟨layoutOf c, c⟩))⟩ := by
  induction cs generalizing catalog with
  | nil => rfl
  | cons c cs ih =>
      have hroot : t.visibleClass? ScopeTable.root c.name = t.ownClass? ScopeTable.root c.name := by
        simp [ScopeTable.visibleClass?, ScopeTable.chain, ht.rootScope]
      obtain ⟨b, hb, hbl⟩ := Option.map_eq_some_iff.mp (hlayout c List.mem_cons_self)
      have hadd : add t catalog c = .ok ⟨catalog.entries.insert c.name ⟨layoutOf c, c⟩⟩ := by
        rw [add, hroot, hb]
        simp only [hbl]
      rw [List.foldlM_cons, hadd]
      exact ih (fun d hd => hlayout d (List.mem_cons_of_mem _ hd)) _

namespace Analysis

/-- What the parts of an analysis say about the program they were made for. -/
structure Describes (a : Analysis) (p : Program) : Prop where
  forest : a.forest = ⟨p.classes⟩
  ordered : Ordered p.classes.reverse
  main : ∀ c ∈ p.classes, c.name ≠ p.main.name
  scopes : a.scopes.Holds p.main p.classes.reverse
  found : ScopeTable.ofProgram p = .ok a.scopes
  catalog : a.catalog.entries = Table.empty.insertAll (p.classes.map fun c => (c.name, ⟨p.layoutOf c, c⟩))

/-- A program with a forest has scopes and layouts too. -/
theorem ofProgram_of_forest {p : Program} {F : Forest} (h : Forest.ofProgram p = .ok F) :
    ∃ a, ofProgram p = .ok a ∧ a.Describes p := by
  obtain ⟨hF, hordered, hmain⟩ := Forest.ofProgram_eq_ok h
  obtain ⟨t, ht, hholds⟩ := ScopeTable.holds_ofProgram hordered hmain
  have hlayout : ∀ c ∈ p.classes, t.layout? c.name = some (p.layoutOf c) := by
    intro c hc
    rw [hholds.layout c.name (hmain c hc), Program.ofLineage_eq hordered hc]
  have hcatalog := Catalog.foldlM_add hholds hlayout ⟨.empty⟩
  refine ⟨⟨F, t, _⟩, ?_, hF, hordered, hmain, hholds, ht, rfl⟩
  refine bind_eq_ok.mpr ⟨F, mapError_eq_ok.mpr h, bind_eq_ok.mpr ⟨t, mapError_eq_ok.mpr ht, ?_⟩⟩
  exact bind_eq_ok.mpr ⟨_, mapError_eq_ok.mpr hcatalog, rfl⟩

theorem describes {p : Program} {a : Analysis} (h : ofProgram p = .ok a) : a.Describes p := by
  obtain ⟨F, hF, _⟩ := bind_eq_ok.mp h
  obtain ⟨a', ha', hdescribes⟩ := ofProgram_of_forest (mapError_eq_ok.mp hF)
  rw [ha'] at h
  cases h
  exact hdescribes

/-- An analysis fails only where there is no forest. -/
theorem ofProgram_eq_error {p : Program} {e : CompileError} (h : ofProgram p = .error e) :
    ∃ f, Forest.ofProgram p = .error f ∧ e = .hierarchy f := by
  cases hF : Forest.ofProgram p with
  | error f =>
      rw [ofProgram, hF] at h
      exact ⟨f, rfl, (Except.error.inj h).symm⟩
  | ok F =>
      obtain ⟨a, ha, _⟩ := ofProgram_of_forest hF
      rw [ha] at h
      exact absurd h (by simp)

section
variable {a : Analysis} {p : Program}

theorem Describes.lineage (h : a.Describes p) (C : String) :
    a.forest.lineage C = lineageIn p.classes.reverse C := by
  rw [h.forest]
  rfl

theorem Describes.ordered_forest (h : a.Describes p) : Ordered a.forest.classes.reverse := by
  rw [h.forest]
  exact h.ordered

theorem Describes.lineage_suffix (h : a.Describes p) {C D : String} (hsub : a.forest.isSubclass D C = true) :
    a.forest.lineage C <:+ a.forest.lineage D :=
  Forest.lineage_suffix h.ordered_forest hsub

theorem Describes.mem_classes (h : a.Describes p) {C : String} {c : ClassDecl} (hc : c ∈ a.forest.lineage C) :
    c ∈ p.classes := by
  rw [h.lineage] at hc
  exact List.mem_reverse.mp (mem_of_mem_lineageIn _ hc)

/-- A lineage starts with a class of the program and goes on with the lineage of its superclass. -/
theorem Describes.lineage_eq_cons (h : a.Describes p) {C : String} {c : ClassDecl} {ancestors : List ClassDecl}
    (hL : a.forest.lineage C = c :: ancestors) :
    c ∈ p.classes ∧ ancestors = c.superName.elim [] a.forest.lineage := by
  have hname : c.name = C := name_of_lineage hL
  have hc : c ∈ p.classes := h.mem_classes (hL ▸ List.mem_cons_self)
  refine ⟨hc, ?_⟩
  have hlineage := lineageIn_of_mem h.ordered (List.mem_reverse.mpr hc)
  rw [hname, ← h.lineage, hL] at hlineage
  rw [(List.cons.inj hlineage).2]
  cases c.superName with
  | none => rfl
  | some S => exact (h.lineage S).symm

/-- The methods of the instances of a class, as its lineage gives them. -/
theorem Describes.classMethod? (h : a.Describes p) (C name : String) :
    a.scopes.classMethod? C name =
      (a.forest.lineage C).findSome? fun c => (c.method? name).map (·.signature c.name) := by
  rw [h.lineage]
  exact h.scopes.classMethod? C name

theorem Describes.names_nodup (h : a.Describes p) : (p.classes.map (·.name)).Nodup :=
   h.ordered.nodup.perm ((List.reverse_perm p.classes).map _)

theorem Describes.entries (h : a.Describes p) :
    a.catalog.entries.entries = p.classes.map fun c => (c.name, ⟨p.layoutOf c, c⟩) := by
  have hkeys : (p.classes.map fun c => (c.name, (⟨p.layoutOf c, c⟩ : CatalogEntry))).map (·.1) =
      p.classes.map (·.name) := by
    rw [List.map_map]
    rfl
  rw [h.catalog, Table.entries_insertAll (by rw [hkeys]; exact h.names_nodup)
    (fun _ _ => List.not_mem_nil)]
  rfl

/-- The layout of a class, as its lineage gives it. -/
theorem Describes.layout? (h : a.Describes p) (C : String) :
    a.catalog.layout? C = Layout.ofLineage (a.forest.lineage C) := by
  rw [Catalog.layout?, Catalog.find?, Table.find?, h.entries, ScopeTable.lookup_map, h.lineage]
  cases hfind : p.classes.find? fun c => c.name = C with
  | none =>
      have hnil : lineageIn p.classes.reverse C = [] := by
        rw [lineageIn_eq_nil]
        simpa using hfind
      rw [hnil]
      rfl
  | some c =>
      obtain rfl : c.name = C := by simpa using List.find?_some hfind
      rw [Program.ofLineage_eq h.ordered (List.mem_of_find?_eq_some hfind)]
      rfl

theorem Describes.layout?_of_mem (h : a.Describes p) {c : ClassDecl} (hc : c ∈ p.classes) :
    a.catalog.layout? c.name = some (p.layoutOf c) := by
  rw [h.layout?, h.lineage]
  exact Program.ofLineage_eq h.ordered hc

/-- A declared class has a layout. -/
theorem Describes.exists_layout? (h : a.Describes p) {C : String} (hne : a.forest.lineage C ≠ []) :
    ∃ l, a.catalog.layout? C = some l := by
  rw [h.layout?, ← Option.isSome_iff_exists, Layout.ofLineage_isSome]
  exact hne

/-- A class and its subclasses have layouts. -/
theorem Describes.layouts_of_isSubclass (h : a.Describes p) {C D : String}
    (hsub : a.forest.isSubclass D C = true) :
    ∃ l l', a.catalog.layout? C = some l ∧ a.catalog.layout? D = some l' := by
  obtain ⟨c, hc, rfl⟩ := isSubclass_iff.mp hsub
  have hC : a.forest.lineage c.name ≠ [] := by
    rw [h.lineage] at hc ⊢
    rw [ne_eq, lineageIn_eq_nil, Classical.not_not]
    exact List.mem_map_of_mem (mem_of_mem_lineageIn _ hc)
  obtain ⟨l, hl⟩ := h.exists_layout? hC
  obtain ⟨l', hl'⟩ := h.exists_layout? (List.ne_nil_of_mem hc)
  exact ⟨l, l', hl, hl'⟩

/-- What a name means at a node of a method: a parameter, a local variable or the nearest field. -/
theorem Describes.resolve? (h : a.Describes p) (hnodup : (nodeIds p.visits).Nodup) {c : ClassDecl}
    (hc : c ∈ p.classes) {m : MethodDecl} (hm : m ∈ c.methods) {id : NodeId} (hid : id ∈ nodeIds m.visits)
    (name : String) :
    a.scopes.resolve? id name =
      ((m.formals.map (·.bind .param) ++ m.locals.map (·.bind .local)).lookup name).or
        ((a.forest.lineage c.name).findSome? fun d => (d.fields.map (·.bind .field)).lookup name) := by
  have hplaces := ScopeTable.places_ofProgram h.ordered hnodup h.found
  have hrev : c ∈ p.classes.reverse := List.mem_reverse.mpr hc
  obtain ⟨k, hk⟩ := h.scopes.declared c hrev
  obtain ⟨j, hj⟩ := List.getElem?_of_mem hm
  have hscope := hplaces.classes c hrev k hk.found _ (ScopeTable.mem_nodeScopes_of_method hj hid)
  rw [ScopeTable.resolve?, hscope, Option.bind_some,
    h.scopes.visibleVariable? (hk.methods j m hj) hk.chain, h.lineage]

/-- Nothing can be named at the nodes of the main method. -/
theorem Describes.resolve?_main (h : a.Describes p) (hnodup : (nodeIds p.visits).Nodup) {id : NodeId}
    (hid : id ∈ nodeIds p.main.visits) (name : String) : a.scopes.resolve? id name = none := by
  have hplaces := ScopeTable.places_ofProgram h.ordered hnodup h.found
  rw [ScopeTable.resolve?, hplaces.main id hid]
  exact h.scopes.visibleVariable?_main name

end

end Analysis

end Demitasse
