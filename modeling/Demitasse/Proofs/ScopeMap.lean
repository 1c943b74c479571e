import Demitasse.Proofs.NodeTrees
import Demitasse.Proofs.Resolution

/-!
The scope of every node. The main class, each class and each method open a scope of their own, numbered in
declaration order behind the root, and the nodes of a program are placed in them: no node is left out and nothing else
is placed. In a program that was read the nodes are the numbers from zero on, so the map is total on them.
-/

namespace Demitasse

/-- The nodes of a class that open a scope: its own and those of its methods. -/
def ClassDecl.owners (c : ClassDecl) : List Node :=
  c.node :: c.methods.map (·.node)

/-- The nodes of a main class and of classes that open a scope, in declaration order. -/
def ownersOf (main : MainClass) (classes : List ClassDecl) : List Node :=
  main.node :: classes.flatMap ClassDecl.owners

/-- The nodes of a program that open a scope. -/
def Program.owners (p : Program) : List Node :=
  ownersOf p.main p.classes

theorem ownersOf_append (main : MainClass) (classes : List ClassDecl) (c : ClassDecl) :
    ownersOf main (classes ++ [c]) = ownersOf main classes ++ c.owners := by
  rw [ownersOf, ownersOf, List.flatMap_append, List.flatMap_singleton, List.cons_append]

theorem MainClass.node_mem_nodeIds (c : MainClass) : c.node.id ∈ nodeIds c.visits := by
  rw [MainClass.visits, nodeIds_cons_of_some rfl]
  exact List.mem_cons_self

theorem MethodDecl.node_mem_nodeIds (m : MethodDecl) : m.node.id ∈ nodeIds m.visits := by
  rw [MethodDecl.visits, nodeIds_cons_of_some rfl]
  exact List.mem_cons_self

theorem ClassDecl.mem_nodeIds_of_owner {c : ClassDecl} {n : Node} (h : n ∈ c.owners) : n.id ∈ nodeIds c.visits := by
  rw [ClassDecl.visits, nodeIds_cons_of_some rfl, nodeIds_append, nodeIds_flatMap MethodDecl.visits]
  rcases List.mem_cons.mp h with rfl | h
  · exact List.mem_cons_self
  · obtain ⟨m, hm, rfl⟩ := List.mem_map.mp h
    exact List.mem_cons_of_mem _
      (List.mem_append_right _ (List.mem_flatMap.mpr ⟨m, hm, m.node_mem_nodeIds⟩))

namespace ScopeTable

theorem nodesOf_append (main : MainClass) (classes more : List ClassDecl) :
    nodesOf main (classes ++ more) = nodesOf main classes ++ more.flatMap fun c => nodeIds c.visits := by
  rw [nodesOf, nodesOf, List.flatMap_append, List.append_assoc]

theorem mem_nodesOf_of_owner {main : MainClass} {classes : List ClassDecl} {n : Node}
    (h : n ∈ ownersOf main classes) : n.id ∈ nodesOf main classes := by
  rcases List.mem_cons.mp h with rfl | h
  · exact List.mem_append_left _ main.node_mem_nodeIds
  · obtain ⟨c, hc, hn⟩ := List.mem_flatMap.mp h
    exact List.mem_append_right _ (List.mem_flatMap.mpr ⟨c, hc, c.mem_nodeIds_of_owner hn⟩)

/-- The scopes of a main class and of classes have the numbers from one on, in declaration order, and exactly the
nodes of these classes have a scope. -/
structure Numbers (t : ScopeTable) (main : MainClass) (classes : List ClassDecl) : Prop where
  size : t.scopes.size = 1 + (ownersOf main classes).length
  owners : (ownersOf main classes).map (fun n => t.scopeOf? n.id) =
    (List.range' 1 (ownersOf main classes).length).map some
  defined : ∀ id, (t.scopeOf? id).isSome ↔ id ∈ nodesOf main classes

theorem numbers_ofMain {main : MainClass} (hnodup : (nodeIds main.visits).Nodup) : (ofMain main).Numbers main [] where
  size := rfl
  owners := by
    have hscope := (places_ofMain hnodup).main _ main.node_mem_nodeIds
    rw [ownersOf, List.flatMap_nil, List.map_singleton, hscope]
    rfl
  defined id := by
    rw [scopeOf?, ofMain, Std.TreeMap.isSome_getElem?_eq_contains, Std.TreeMap.contains_ofList, List.map_map,
      List.contains_iff_mem, nodesOf, List.flatMap_nil, List.append_nil]
    exact iff_of_eq (congrArg (id ∈ ·) (List.map_id _))

/-- A class and its methods get the next numbers. -/
theorem map_owners_withClass {t : ScopeTable} {c : ClassDecl} (hnodup : (nodeIds c.visits).Nodup)
    (outer : List ScopeId) (inherited : Option Layout) :
    c.owners.map (fun n => (t.withClass c outer inherited).scopeOf? n.id) =
      (List.range' t.scopes.size c.owners.length).map some := by
  have hplaced := fun e => scopeOf?_withClass (t := t) hnodup outer inherited (e := e)
  have hclass : (c.node.id, t.scopes.size) ∈ c.nodeScopes t.scopes.size :=
    List.mem_append_left _ (List.mem_map_of_mem List.mem_cons_self)
  have hmethods : (c.methods.map fun m => (t.withClass c outer inherited).scopeOf? m.node.id) =
      (List.range' (t.scopes.size + 1) c.methods.length).map some := by
    refine List.ext_getElem? fun j => ?_
    rw [List.getElem?_map, List.getElem?_map]
    cases hm : c.methods[j]? with
    | none =>
        have hlen : c.methods.length ≤ j := List.getElem?_eq_none_iff.mp hm
        rw [List.getElem?_eq_none (by rw [List.length_range']; exact hlen)]
        rfl
    | some m =>
        have hlen : j < c.methods.length := (List.getElem?_eq_some_iff.mp hm).1
        rw [List.getElem?_range' hlen, Nat.one_mul, Option.map_some, Option.map_some,
          hplaced _ (mem_nodeScopes_of_method hm m.node_mem_nodeIds)]
  rw [ClassDecl.owners, List.map_cons, List.map_map, List.length_cons, List.length_map, List.range'_succ, List.map_cons,
    hplaced _ hclass]
  exact congrArg (some t.scopes.size :: ·) hmethods

theorem Numbers.withClass {t : ScopeTable} {main : MainClass} {classes : List ClassDecl} {c : ClassDecl}
    (h : t.Numbers main classes) (hnodup : (nodesOf main (classes ++ [c])).Nodup) (outer : List ScopeId)
    (inherited : Option Layout) : (t.withClass c outer inherited).Numbers main (classes ++ [c]) := by
  rw [nodesOf_append, List.flatMap_singleton] at hnodup
  obtain ⟨-, hown, hdisjoint⟩ := List.nodup_append.mp hnodup
  refine ⟨?_, ?_, fun id => ?_⟩
  · rw [ownersOf_append, List.length_append, ← Nat.add_assoc, ← h.size]
    simp [ScopeTable.withClass, ClassDecl.owners]
  · have hold : (ownersOf main classes).map (fun n => (t.withClass c outer inherited).scopeOf? n.id) =
        (ownersOf main classes).map (fun n => t.scopeOf? n.id) := by
      refine List.map_congr_left fun n hn => scopeOf?_withClass_of_notMem t outer inherited fun hmem => ?_
      exact hdisjoint n.id (mem_nodesOf_of_owner hn) n.id hmem rfl
    rw [ownersOf_append, List.map_append, hold, h.owners, map_owners_withClass hown, List.length_append, h.size,
      ← List.map_append, List.range'_append_1]
  · rw [nodesOf_append, List.flatMap_singleton, List.mem_append, ← h.defined]
    by_cases hid : id ∈ nodeIds c.visits
    · obtain ⟨e, he, rfl⟩ := List.mem_map.mp (keys_nodeScopes c t.scopes.size ▸ hid)
      rw [scopeOf?_withClass hown outer inherited he]
      simp [hid]
    · rw [scopeOf?_withClass_of_notMem t outer inherited hid]
      simp [hid]

theorem numbers_foldlM (cs : List ClassDecl) {main : MainClass} :
    ∀ {t t' : ScopeTable} {classes : List ClassDecl}, t.Numbers main classes →
      (nodesOf main (classes ++ cs)).Nodup → cs.foldlM addClass t = .ok t' → t'.Numbers main (classes ++ cs) := by
  induction cs with
  | nil =>
      rintro t t' classes h - ⟨⟩
      rw [List.append_nil]
      exact h
  | cons c cs ih =>
      intro t t' classes h hnodup ht'
      rw [List.foldlM_cons] at ht'
      obtain ⟨t₁, ht₁, ht'⟩ := bind_eq_ok.mp ht'
      obtain ⟨⟨outer, inherited⟩, -, ht₁⟩ := bind_eq_ok.mp ht₁
      obtain rfl := pure_eq_ok.mp ht₁
      rw [List.append_cons] at hnodup ⊢
      refine ih (h.withClass ?_ outer inherited) hnodup ht'
      rw [nodesOf_append] at hnodup
      exact (List.nodup_append.mp hnodup).1

/-- In a program of distinct nodes, scopes are numbered in declaration order and exactly its nodes have one. -/
theorem numbers_ofProgram {p : Program} {t : ScopeTable} (hnodup : (nodeIds p.visits).Nodup)
    (ht : ofProgram p = .ok t) : t.Numbers p.main p.classes := by
  rw [Program.visits, nodeIds_cons_of_none rfl, nodeIds_append, nodeIds_flatMap] at hnodup
  exact numbers_foldlM p.classes (numbers_ofMain (List.nodup_append.mp hnodup).1) hnodup ht

/-- Every node of a program lies in the scope of its class, its method or the main class, the numbers that are no
nodes in none. -/
structure Covers (t : ScopeTable) (p : Program) : Prop where
  defined : ∀ id, (t.scopeOf? id).isSome ↔ id ∈ nodeIds p.visits
  main : t.scopes[1]? = some ⟨[root], some p.main.name, [], []⟩ ∧ ∀ id ∈ nodeIds p.main.visits, t.scopeOf? id = some 1
  classes : ∀ c ∈ p.classes, ∃ k outer, t.classScope? c.name = some k ∧ t.scopes[k]? = some (c.scope outer) ∧
    t.scopeOf? c.node.id = some k ∧ (∀ f ∈ c.fields, t.scopeOf? f.node.id = some k) ∧
    ∀ m ∈ c.methods, ∃ s, t.scopes[s]? = some (m.scope c.name (k :: outer)) ∧
      ∀ id ∈ nodeIds m.visits, t.scopeOf? id = some s
  distinct : (p.owners.map fun n => t.scopeOf? n.id).Nodup

end ScopeTable

open ScopeTable

theorem Analysis.Describes.covers {a : Analysis} {p : Program} (h : a.Describes p)
    (hnodup : (nodeIds p.visits).Nodup) : a.scopes.Covers p := by
  have hplaces := places_ofProgram h.ordered hnodup h.found
  have hnumbers := numbers_ofProgram hnodup h.found
  refine ⟨fun id => ?_, ⟨h.scopes.mainScope, hplaces.main⟩, fun c hc => ?_, ?_⟩
  · rw [hnumbers.defined, Program.visits, nodeIds_cons_of_none rfl, nodeIds_append, nodeIds_flatMap, nodesOf]
  · have hrev : c ∈ p.classes.reverse := List.mem_reverse.mpr hc
    obtain ⟨k, hk⟩ := h.scopes.declared c hrev
    have hnodes := hplaces.classes c hrev k hk.found
    have hchain := hk.chain
    rw [Forest.lineageIn_of_mem h.ordered hrev] at hchain
    refine ⟨k, _, hk.found, hchain.head, ?_, fun f hf => ?_, fun m hm => ?_⟩
    · exact hnodes (c.node.id, k) (List.mem_append_left _ (List.mem_map_of_mem List.mem_cons_self))
    · have hfield : f.node.id ∈ c.node.id :: c.fields.map (·.node.id) :=
        List.mem_cons_of_mem _ (List.mem_map_of_mem hf)
      exact hnodes (f.node.id, k) (List.mem_append_left _ (List.mem_map_of_mem hfield))
    · obtain ⟨j, hj⟩ := List.getElem?_of_mem hm
      exact ⟨k + 1 + j, hk.methods j m hj, fun id hid => hnodes _ (mem_nodeScopes_of_method hj hid)⟩
  · rw [Program.owners, hnumbers.owners, List.Nodup, List.pairwise_map]
    exact (List.pairwise_lt_range' ..).imp fun hlt heq => Nat.ne_of_lt hlt (Option.some.inj heq)

open NodeTree

/-- The nodes of a program that was read are numbered from zero on, parts before wholes and from left to right. If
the program has an analysis, then exactly these numbers have a scope, and it is the one that their place says. -/
theorem node_scopes_total {source : String} {p : Program} (h : parse source = .ok p) :
    (nodeIds p.visits).Perm (List.range (nodeIds p.visits).length) ∧
    preorderAll p.trees = nodes p.visits ∧
    (postorderAll p.trees).map (·.id) = List.range (nodeIds p.visits).length ∧
    p.trees.Pairwise Precedes ∧ (∀ u ∈ p.trees, ∀ t : NodeTree, t.Inside u → t.LastInTree) ∧
    ∀ a, Analysis.ofProgram p = .ok a →
      (∀ id, (a.scopes.scopeOf? id).isSome ↔ id < (nodeIds p.visits).length) ∧ a.scopes.Covers p := by
  refine ⟨nodeIds_perm_range_of_parse h, p.preorder_trees, ?_, pairwise_precedes (pairwise_postorder_of_parse h),
    fun u hu t ht => lastInTree_of_parse h hu ht, fun a ha => ?_⟩
  · rw [p.postorder_trees, p.nodeIds_perm.length_eq]
    exact ids_of_parse h
  · have hcovers := (Analysis.describes ha).covers (nodeIds_nodup_of_parse h)
    exact ⟨fun id => (hcovers.defined id).trans (mem_nodeIds_of_parse h), hcovers⟩

/-- A class with a field and a method that has a parameter and a local variable. -/
def birdSource : String :=
  "class Main\x7bpublic static void main(String[] args)\x7bSystem.out.println(new Bird().climb(3));\x7d\x7d" ++
  "class Bird\x7bint height;public int climb(int by)\x7bint old;old=height;height=old+by;return height;\x7d\x7d"

theorem node_scopes_total_bird : ∃ p a, parse birdSource = .ok p ∧ Analysis.ofProgram p = .ok a ∧
    (postorderAll p.trees).map (·.id) = List.range 17 ∧ (∀ id, (a.scopes.scopeOf? id).isSome ↔ id < 17) ∧
    a.scopes.Covers p := by
  have hread : ((parse birdSource).toOption.map fun p => ((nodeIds p.visits).length, (Forest.ofProgram p).isOk)) =
      some (17, true) := by decide +kernel
  obtain ⟨p, hparse, hp⟩ := Option.map_eq_some_iff.mp hread
  obtain ⟨hlength, hforest⟩ := Prod.mk.inj hp
  have hparse : parse birdSource = .ok p := toOption_eq_some.mp hparse
  cases hF : Forest.ofProgram p with
  | error f =>
      rw [hF] at hforest
      cases hforest
  | ok F =>
      obtain ⟨a, ha, -⟩ := Analysis.ofProgram_of_forest hF
      obtain ⟨-, -, hpost, -, -, hscopes⟩ := node_scopes_total hparse
      obtain ⟨hdefined, hcovers⟩ := hscopes a ha
      rw [hlength] at hpost hdefined
      exact ⟨p, a, hparse, ha, hpost, hdefined, hcovers⟩

end Demitasse
