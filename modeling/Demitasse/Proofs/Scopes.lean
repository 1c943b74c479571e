import Std.Data.TreeMap.Lemmas
import Demitasse.Scope.OfProgram
import Demitasse.Proofs.Layouts

/-! The scopes of a program with a sound class hierarchy. Adding a class changes no scope that is already
there, so the scopes around a class are those of its lineage and the root, and every lookup in them can
be read off the lineage. -/

namespace Demitasse.ScopeTable

open Forest

/-- Scopes, from the inside out, that belong to the classes of a lineage, and the root around them. -/
inductive Chain (t : ScopeTable) : List ScopeId → List ClassDecl → Prop
  | nil : Chain t [root] []
  | cons {k : ScopeId} {outer : List ScopeId} {c : ClassDecl} {ancestors : List ClassDecl} :
      t.scopes[k]? = some (c.scope outer) → Chain t outer ancestors → Chain t (k :: outer) (c :: ancestors)

/-- The scope of a class, with those around it and those of its methods behind it. -/
structure ClassAt (t : ScopeTable) (c : ClassDecl) (L : List ClassDecl) (k : ScopeId) : Prop where
  found : t.classScope? c.name = some k
  chain : t.Chain (t.chain k) L
  methods : ∀ j m, c.methods[j]? = some m → t.scopes[k + 1 + j]? = some (m.scope c.name (t.chain k))

/-- The scopes of a main class and of classes that are listed latest first. -/
structure Holds (t : ScopeTable) (main : MainClass) (rev : List ClassDecl) : Prop where
  rootScope : t.scopes[root]? = some ⟨[], none, [], []⟩
  mainScope : t.scopes[1]? = some ⟨[root], some main.name, [], []⟩
  undeclared : ∀ name, name ∉ rev.map (·.name) → t.classScope? name = none
  declared : ∀ c ∈ rev, ∃ k, t.ClassAt c (lineageIn rev c.name) k
  layout : ∀ name, name ≠ main.name → t.layout? name = Layout.ofLineage (lineageIn rev name)

theorem holds_ofMain (main : MainClass) : (ofMain main).Holds main [] where
  rootScope := rfl
  mainScope := rfl
  undeclared _ _ := rfl
  declared _ hc := absurd hc List.not_mem_nil
  layout name hne := by
    have hlookup : (ofMain main).ownClass? ScopeTable.root name = none := by
      simp [ownClass?, ofMain, Table.lookup_cons, hne]
    rw [layout?, hlookup]
    rfl

section
variable {t t' : ScopeTable}

/-- Scopes that are there stay as they are. -/
def Extends (t t' : ScopeTable) : Prop :=
  ∀ (i : ScopeId) (s : Scope), t.scopes[i]? = some s → t'.scopes[i]? = some s

theorem Chain.extend (hext : t.Extends t') {ids : List ScopeId} {L : List ClassDecl} (h : t.Chain ids L) :
    t'.Chain ids L := by
  induction h with
  | nil => exact .nil
  | cons hk _ ih => exact .cons (hext _ _ hk) ih

theorem chain_extend (hext : t.Extends t') {k : ScopeId} {s : Scope} (hk : t.scopes[k]? = some s) :
    t'.chain k = t.chain k := by
  rw [chain, chain, hk, hext k s hk]

theorem Chain.head {k : ScopeId} {outer : List ScopeId} {c : ClassDecl} {ancestors : List ClassDecl}
    (h : t.Chain (k :: outer) (c :: ancestors)) : t.scopes[k]? = some (c.scope outer) := by
  cases h with
  | cons hk _ => exact hk

theorem ClassAt.extend (hext : t.Extends t') {c : ClassDecl} {ancestors : List ClassDecl} {k : ScopeId}
    (h : t.ClassAt c (c :: ancestors) k) (hfound : t'.classScope? c.name = some k) :
    t'.ClassAt c (c :: ancestors) k := by
  have hchain : t'.chain k = t.chain k := chain_extend hext h.chain.head
  refine ⟨hfound, ?_, ?_⟩
  · rw [hchain]
    exact h.chain.extend hext
  · intro j m hm
    rw [hchain]
    exact hext _ _ (h.methods j m hm)

end

section
variable {t : ScopeTable} {main : MainClass} {rev : List ClassDecl} {c : ClassDecl}

/-- A class whose superclass is declared finds the scopes and the layout of that superclass. -/
theorem Holds.surroundings (h : t.Holds main rev) (hne : ∀ d ∈ rev, d.name ≠ main.name)
    (hsuper : ∀ s, c.superName = some s → s ∈ rev.map (·.name)) :
    ∃ outer, t.surroundings c = .ok (outer, Layout.ofLineage (c.superName.elim [] (lineageIn rev))) ∧
      t.Chain outer (c.superName.elim [] (lineageIn rev)) := by
  cases hs : c.superName with
  | none => exact ⟨[ScopeTable.root], by rw [ScopeTable.surroundings, hs]; rfl, .nil⟩
  | some s =>
      obtain ⟨d, hd, rfl⟩ := List.mem_map.mp (hsuper s hs)
      obtain ⟨k, hk⟩ := h.declared d hd
      have hlayout := h.layout d.name (hne d hd)
      obtain ⟨l, hl⟩ : ∃ l, Layout.ofLineage (lineageIn rev d.name) = some l := by
        rw [← Option.isSome_iff_exists, Layout.ofLineage_isSome, ne_eq, lineageIn_eq_nil,
          Classical.not_not]
        exact hsuper _ hs
      refine ⟨t.chain k, ?_, hk.chain⟩
      rw [ScopeTable.surroundings, hs]
      simp only [hk.found, hlayout, hl, Option.elim]

theorem extends_withClass (outer : List ScopeId) (inherited : Option Layout) :
    t.Extends (t.withClass c outer inherited) := by
  intro i s hi
  have hlt : i < t.scopes.size := (Array.getElem?_eq_some_iff.mp hi).1
  rw [withClass, Array.getElem?_append_left (by rw [Array.size_push]; exact Nat.lt_succ_of_lt hlt),
    Array.getElem?_push_lt hlt]
  exact (Array.getElem?_eq_getElem hlt).symm.trans hi

theorem getElem?_withClass (outer : List ScopeId) (inherited : Option Layout) :
    (t.withClass c outer inherited).scopes[t.scopes.size]? = some (c.scope outer) := by
  rw [withClass, Array.getElem?_append_left (by rw [Array.size_push]; omega), Array.getElem?_push_size]

theorem getElem?_withClass_method (outer : List ScopeId) (inherited : Option Layout) {j : Nat}
    {m : MethodDecl} (hm : c.methods[j]? = some m) :
    (t.withClass c outer inherited).scopes[t.scopes.size + 1 + j]? =
      some (m.scope c.name (t.scopes.size :: outer)) := by
  have hindex : t.scopes.size + 1 + j - (t.scopes.push (c.scope outer)).size = j := by
    rw [Array.size_push]
    omega
  rw [withClass, Array.getElem?_append_right (by rw [Array.size_push]; omega), hindex]
  simp [hm]

theorem chain_withClass (outer : List ScopeId) (inherited : Option Layout) :
    (t.withClass c outer inherited).chain t.scopes.size = t.scopes.size :: outer := by
  rw [chain, getElem?_withClass]
  rfl

/-- The scopes hold a class that was added inside those of its ancestors. -/
theorem Holds.withClass (h : t.Holds main rev) (hordered : Ordered (c :: rev)) (hmain : c.name ≠ main.name)
    {outer : List ScopeId} (hchain : t.Chain outer (c.superName.elim [] (lineageIn rev))) :
    (t.withClass c outer (Layout.ofLineage (c.superName.elim [] (lineageIn rev)))).Holds main (c :: rev) := by
  have hext := extends_withClass (t := t) (c := c) outer
    (Layout.ofLineage (c.superName.elim [] (lineageIn rev)))
  have hlineage : lineageIn (c :: rev) c.name = c :: c.superName.elim [] (lineageIn rev) := by
    rw [lineageIn, if_pos rfl]
    cases c.superName <;> rfl
  refine ⟨hext _ _ h.rootScope, hext _ _ h.mainScope, ?_, ?_, ?_⟩
  · intro name hname
    rw [List.map_cons, List.mem_cons, not_or] at hname
    rw [classScope?, ScopeTable.withClass, Table.lookup_cons, if_neg hname.1]
    exact h.undeclared name hname.2
  · intro d hd
    rcases List.mem_cons.mp hd with rfl | hd
    · refine ⟨t.scopes.size, ?_, ?_, ?_⟩
      · rw [classScope?, ScopeTable.withClass, Table.lookup_cons, if_pos rfl]
      · rw [chain_withClass, hlineage]
        exact .cons (getElem?_withClass _ _) (hchain.extend hext)
      · intro j m hm
        rw [chain_withClass]
        exact getElem?_withClass_method _ _ hm
    · obtain ⟨k, hk⟩ := h.declared d hd
      have hmem : d.name ∈ rev.map (·.name) := List.mem_map_of_mem hd
      have hne : ¬ d.name = c.name := fun he => hordered.1 (he ▸ hmem)
      refine ⟨k, ?_⟩
      rw [lineageIn_cons_of_mem hordered hmem]
      rw [lineageIn_of_mem hordered.tail hd] at hk ⊢
      apply hk.extend hext
      rw [classScope?, ScopeTable.withClass, Table.lookup_cons, if_neg hne]
      exact hk.found
  · intro name hname
    have hlookup : (t.withClass c outer (Layout.ofLineage (c.superName.elim [] (lineageIn rev)))).layout? name =
        (t.layout? name).or (if name = c.name then
          some (Layout.ofClass c (Layout.ofLineage (c.superName.elim [] (lineageIn rev)))) else none) := by
      simp only [layout?, ownClass?, ScopeTable.withClass, List.lookup_append, Table.lookup_cons, if_true]
      cases t.classes.lookup name <;> by_cases hc : name = c.name <;> simp [hc]
    rw [hlookup, h.layout name hname]
    by_cases hc : name = c.name
    · subst hc
      rw [(lineageIn_eq_nil rev c.name).mpr hordered.1, hlineage, if_pos rfl]
      rfl
    · rw [lineageIn_cons_of_ne (fun he => hc he.symm), if_neg hc, Option.or_none]

/-- A class whose superclass is declared can be added, and the scopes hold it with its lineage. -/
theorem Holds.addClass (h : t.Holds main rev) (hordered : Ordered (c :: rev))
    (hne : ∀ d ∈ c :: rev, d.name ≠ main.name) :
    ∃ t', t.addClass c = .ok t' ∧ t'.Holds main (c :: rev) := by
  obtain ⟨outer, hsurroundings, hchain⟩ :=
    h.surroundings (fun d hd => hne d (List.mem_cons_of_mem _ hd)) hordered.2.1
  exact ⟨_, by rw [ScopeTable.addClass, hsurroundings]; rfl,
    h.withClass hordered (hne c List.mem_cons_self) hchain⟩

theorem holds_foldlM (cs : List ClassDecl) : ∀ {t : ScopeTable} {rev : List ClassDecl}, t.Holds main rev →
    Ordered (cs.reverse ++ rev) → (∀ d ∈ cs.reverse ++ rev, d.name ≠ main.name) →
    ∃ t', cs.foldlM ScopeTable.addClass t = .ok t' ∧ t'.Holds main (cs.reverse ++ rev) := by
  induction cs with
  | nil => exact fun h _ _ => ⟨_, rfl, h⟩
  | cons c cs ih =>
      intro t rev h hordered hne
      rw [List.reverse_cons, List.append_assoc, List.singleton_append] at hordered hne ⊢
      obtain ⟨t₁, ht₁, hholds⟩ := h.addClass hordered.of_append
        (fun d hd => hne d (List.mem_append_right _ hd))
      obtain ⟨t', ht', hholds'⟩ := ih hholds hordered hne
      exact ⟨t', by rw [List.foldlM_cons, ht₁]; exact ht', hholds'⟩

/-- The scopes of a program in order are always found. -/
theorem holds_ofProgram {p : Program} (hordered : Ordered p.classes.reverse)
    (hne : ∀ c ∈ p.classes, c.name ≠ p.main.name) :
    ∃ t, ofProgram p = .ok t ∧ t.Holds p.main p.classes.reverse := by
  have hholds := holds_foldlM p.classes (holds_ofMain p.main) (by simpa using hordered)
    (by simpa using hne)
  simpa [ofProgram] using hholds

end

theorem lookup_map {α β : Type} (key : α → String) (value : α → β) (l : List α) (k : String) :
    (l.map fun a => (key a, value a)).lookup k = (l.find? fun a => key a = k).map value := by
  induction l with
  | nil => rfl
  | cons a l ih =>
      rw [List.map_cons, Table.lookup_cons, List.find?_cons, ih]
      by_cases h : k = key a
      · simp [h]
      · have h' : ¬ key a = k := fun he => h he.symm
        simp [h, h']

section
variable {t : ScopeTable} {main : MainClass} {rev : List ClassDecl}

/-- What a scope declares itself, looked for from the inside out, is found along the lineage. -/
theorem Chain.findSome? {β : Type} {own : ScopeId → Option β} {declared : ClassDecl → Option β}
    (hroot : own ScopeTable.root = none)
    (hown : ∀ k c outer, t.scopes[k]? = some (ClassDecl.scope c outer) → own k = declared c)
    {ids : List ScopeId} {L : List ClassDecl} (h : t.Chain ids L) :
    ids.findSome? own = L.findSome? declared := by
  induction h with
  | nil => simp [hroot]
  | cons hk _ ih => rw [List.findSome?_cons, List.findSome?_cons, hown _ _ _ hk, ih]

theorem ownMethod?_of_class {k : ScopeId} {c : ClassDecl} {outer : List ScopeId}
    (hk : t.scopes[k]? = some (c.scope outer)) (name : String) :
    t.ownMethod? k name = (c.method? name).map fun m => ⟨m.signature c.name, m.node.id⟩ := by
  rw [ownMethod?, hk, ClassDecl.method?]
  exact lookup_map _ _ _ _

theorem ownVariable?_of_class {k : ScopeId} {c : ClassDecl} {outer : List ScopeId}
    (hk : t.scopes[k]? = some (c.scope outer)) (name : String) :
    t.ownVariable? k name = (c.fields.map (·.bind .field)).lookup name := by
  rw [ownVariable?, hk]
  rfl

/-- Instances of a class have the methods of its lineage, and of two with one name the nearer one. -/
theorem Holds.classMethod? (h : t.Holds main rev) (C name : String) :
    t.classMethod? C name =
      (lineageIn rev C).findSome? fun c => (c.method? name).map (·.signature c.name) := by
  by_cases hC : C ∈ rev.map (·.name)
  · obtain ⟨c, hc, rfl⟩ := List.mem_map.mp hC
    obtain ⟨k, hk⟩ := h.declared c hc
    have hroot : t.ownMethod? root name = none := by simp [ownMethod?, h.rootScope]
    rw [ScopeTable.classMethod?, hk.found, Option.bind_some, visibleMethod?,
      hk.chain.findSome? hroot (fun _ _ _ hk => ownMethod?_of_class hk name), List.map_findSome?]
    simp [Function.comp_def]
  · rw [ScopeTable.classMethod?, h.undeclared C hC, (lineageIn_eq_nil rev C).mpr hC]
    rfl

/-- What a name means in the scope of a method: a parameter, a local variable or the nearest field. -/
theorem Holds.visibleVariable? (h : t.Holds main rev) {k : ScopeId} {m : MethodDecl} {C : String}
    {outer : List ScopeId} {L : List ClassDecl} (hk : t.scopes[k]? = some (m.scope C outer))
    (hchain : t.Chain outer L) (name : String) :
    t.visibleVariable? k name =
      ((m.formals.map (·.bind .param) ++ m.locals.map (·.bind .local)).lookup name).or
        (L.findSome? fun c => (c.fields.map (·.bind .field)).lookup name) := by
  have hroot : t.ownVariable? root name = none := by simp [ownVariable?, h.rootScope]
  have hown : t.ownVariable? k name =
      (m.formals.map (·.bind .param) ++ m.locals.map (·.bind .local)).lookup name := by
    rw [ownVariable?, hk]
    rfl
  have hfields := hchain.findSome? hroot (fun _ _ _ hk => ownVariable?_of_class hk name)
  rw [ScopeTable.visibleVariable?, ScopeTable.chain, hk, List.findSome?_cons, hown, ← hfields]
  cases (m.formals.map (·.bind .param) ++ m.locals.map (·.bind .local)).lookup name <;> rfl

/-- Nothing can be named in the main method. -/
theorem Holds.visibleVariable?_main (h : t.Holds main rev) (name : String) :
    t.visibleVariable? 1 name = none := by
  simp [ScopeTable.visibleVariable?, ScopeTable.chain, h.mainScope, ownVariable?, h.rootScope]

end

end Demitasse.ScopeTable
