import Demitasse.Class.Table
import Demitasse.Proofs.Families

/-!
The construction of a forest, class by class. First the names of all classes are numbered. Then every class becomes a
tree behind those that are there. It keeps the number of its superclass as its parent and is entered among the children
of its parent, or among the roots if it extends no class. Each insertion keeps parents older than their children, and
children and roots in the order of their declarations. The construction fails where the forest of the program does,
and what is asked of the one is answered by the other.
-/

namespace Demitasse

/-- The number of a class, in the order of the declarations. -/
abbrev TreeId := Nat

/-- A class and its place in a forest. -/
structure ForestTree where
  decl : ClassDecl
  parent : Option TreeId
  children : List TreeId

/-- A forest under construction. -/
structure ForestBuilder where
  trees : Array ForestTree
  roots : List TreeId
  /-- the numbers of the classes so far, the latest first -/
  byName : List (String × TreeId)

namespace ForestBuilder

/-- No tree, where construction starts. -/
def start : ForestBuilder :=
  ⟨#[], [], []⟩

/-- Numbers the names of classes from `index` on. No class is named like the main class, and no two share a name. -/
def declareAll (mainName : String) : (index : Nat) → (declared : List (String × Nat)) → List ClassDecl →
    Except (Located HierarchyFault) (List (String × Nat))
  | _, declared, [] => .ok declared
  | index, declared, c :: rest =>
    if c.name = mainName then .error ⟨c.node.span, .namedLikeMain c.name⟩
    else if (declared.lookup c.name).isSome then .error ⟨c.node.span, .declaredTwice c.name⟩
    else declareAll mainName (index + 1) ((c.name, index) :: declared) rest

/-- The tree that a class goes under. -/
def parentFor (b : ForestBuilder) (declared : List (String × Nat)) (index : Nat) (c : ClassDecl) :
    Except (Located HierarchyFault) (Option TreeId) :=
  match c.superName with
  | none => .ok none
  | some superName =>
    if superName = c.name then .error ⟨c.node.span, .extendsItself c.name⟩
    else
      match declared.lookup superName with
      | none => .error ⟨c.node.span, .extendsUndeclared c.name superName⟩
      | some superIndex =>
        if index < superIndex then .error ⟨c.node.span, .extendsLater c.name superName⟩
        else .ok (b.byName.lookup superName)

/-- Makes a tree of a class, under another tree or as a root. -/
def attach (b : ForestBuilder) (c : ClassDecl) (parent : Option TreeId) : ForestBuilder :=
  let id := b.trees.size
  let trees := b.trees.push ⟨c, parent, []⟩
  let byName := (c.name, id) :: b.byName
  match parent with
  | some q => ⟨trees.modify q fun t => { t with children := t.children ++ [id] }, b.roots, byName⟩
  | none => ⟨trees, b.roots ++ [id], byName⟩

/-- Inserts classes one after the other; `index` is the number of the first one. -/
def insertAll (declared : List (String × Nat)) : (index : Nat) → ForestBuilder → List ClassDecl →
    Except (Located HierarchyFault) ForestBuilder
  | _, b, [] => .ok b
  | index, b, c :: rest => do
    let parent ← b.parentFor declared index c
    insertAll declared (index + 1) (b.attach c parent) rest

/-- The construction of the forest of a program. -/
def build (p : Program) : Except (Located HierarchyFault) ForestBuilder := do
  let declared ← declareAll p.main.name 0 [] p.classes
  insertAll declared 0 start p.classes

/-- The classes of the trees. -/
def decls (b : ForestBuilder) : List ClassDecl :=
  b.trees.toList.map (·.decl)

/-- The parent of a tree. -/
def parent? (b : ForestBuilder) (id : TreeId) : Option TreeId :=
  (b.trees[id]?).bind (·.parent)

/-- The tree of a class. -/
def tree? (b : ForestBuilder) (name : String) : Option ForestTree :=
  (b.byName.lookup name).bind (b.trees[·]?)

/-- The classes met on the way up from a tree, this one included. -/
inductive Climbs (b : ForestBuilder) : Option TreeId → List ClassDecl → Prop
  | top : b.Climbs none []
  | up {id : TreeId} {t : ForestTree} {L : List ClassDecl} :
      b.trees[id]? = some t → b.Climbs t.parent L → b.Climbs (some id) (t.decl :: L)

/-- The names met on the way down from some trees, those below a tree right behind it. -/
inductive Collects (b : ForestBuilder) : List TreeId → List String → Prop
  | nil : b.Collects [] []
  | cons {id : TreeId} {t : ForestTree} {ids : List TreeId} {below beside : List String} :
      b.trees[id]? = some t → b.Collects t.children below → b.Collects ids beside →
      b.Collects (id :: ids) (t.decl.name :: (below ++ beside))

/-- Names are numbered as the classes are that have them. -/
def Numbers (entries : List (String × Nat)) (cs : List ClassDecl) : Prop :=
  ∀ name id, entries.lookup name = some id ↔ ∃ c, cs[id]? = some c ∧ c.name = name

/-- What is known of the trees when the classes `cs` have been inserted. -/
structure Sound (b : ForestBuilder) (cs : List ClassDecl) : Prop where
  decls : b.decls = cs
  byName : Numbers b.byName cs
  /-- the classes without a parent are those that extend none -/
  top : ∀ (id : TreeId) t, b.trees[id]? = some t → (t.parent = none ↔ t.decl.superName = none)
  /-- a parent is the superclass and was inserted before -/
  older : ∀ (id : TreeId) t q, b.trees[id]? = some t → t.parent = some q →
    q < id ∧ ∃ d, cs[q]? = some d ∧ t.decl.superName = some d.name
  children : ∀ (id : TreeId) t, b.trees[id]? = some t →
    t.children = (List.range cs.length).filter fun k => b.parent? k = some id
  roots : b.roots = (List.range cs.length).filter fun k => b.parent? k = none

section
variable {b : ForestBuilder} {cs rest : List ClassDecl} {c : ClassDecl} {entries declared : List (String × Nat)}
  {parent : Option TreeId} {id : TreeId} {t : ForestTree} {name : String}

theorem Numbers.mem_iff (h : Numbers entries cs) : name ∈ cs.map (·.name) ↔ ∃ id, entries.lookup name = some id := by
  rw [List.mem_map]
  constructor
  · rintro ⟨c, hc, hname⟩
    obtain ⟨id, hid⟩ := List.getElem?_of_mem hc
    exact ⟨id, (h name id).mpr ⟨c, hid, hname⟩⟩
  · rintro ⟨id, hid⟩
    obtain ⟨c, hc, hname⟩ := (h name id).mp hid
    exact ⟨c, List.mem_of_getElem? hc, hname⟩

/-- The next class gets the next number. -/
theorem Numbers.cons (h : Numbers entries cs) (hnew : c.name ∉ cs.map (·.name)) :
    Numbers ((c.name, cs.length) :: entries) (cs ++ [c]) := by
  intro name id
  rw [Table.lookup_cons]
  simp only [Forest.getElem?_concat_eq_some]
  by_cases hname : name = c.name
  · rw [if_pos hname, Option.some.injEq]
    constructor
    · rintro rfl
      exact ⟨c, .inr ⟨rfl, rfl⟩, hname.symm⟩
    · rintro ⟨d, hd | ⟨hid, _⟩, hd'⟩
      · exact absurd (List.mem_map.mpr ⟨d, List.mem_of_getElem? hd, hd'.trans hname⟩) hnew
      · exact hid.symm
  · rw [if_neg hname, h name id]
    constructor
    · rintro ⟨d, hd, hd'⟩
      exact ⟨d, .inl hd, hd'⟩
    · rintro ⟨d, hd | ⟨_, rfl⟩, hd'⟩
      · exact ⟨d, hd, hd'⟩
      · exact absurd hd'.symm hname

/-- In a numbering of all classes, those in front have the smaller numbers. -/
theorem Numbers.exists_lt (h : Numbers declared (cs ++ rest)) (hmem : name ∈ cs.map (·.name)) :
    ∃ i < cs.length, declared.lookup name = some i := by
  obtain ⟨d, hd, hname⟩ := List.mem_map.mp hmem
  obtain ⟨i, hi⟩ := List.getElem?_of_mem hd
  have hlt := (List.getElem?_eq_some_iff.mp hi).1
  exact ⟨i, hlt, (h name i).mpr ⟨d, by rw [List.getElem?_append_left hlt, hi], hname⟩⟩

/-- A class does not share its name with one in front. -/
theorem Numbers.name_not_mem (h : Numbers declared (cs ++ c :: rest)) : c.name ∉ cs.map (·.name) := by
  intro hmem
  obtain ⟨i, hlt, hi⟩ := h.exists_lt hmem
  have hown := (h c.name cs.length).mpr ⟨c, by simp, rfl⟩
  exact absurd (Option.some.inj (hi.symm.trans hown)) (Nat.ne_of_lt hlt)

/-- What is declared under another name and not in front of a class is declared behind it. -/
theorem Numbers.not_mem_iff_lt (h : Numbers declared (cs ++ c :: rest)) {j : Nat} (hj : declared.lookup name = some j)
    (hne : name ≠ c.name) : name ∉ cs.map (·.name) ↔ cs.length < j := by
  constructor
  · intro hnot
    obtain ⟨d, hd, hname⟩ := (h name j).mp hj
    rcases Nat.lt_trichotomy j cs.length with hlt | rfl | hgt
    · rw [List.getElem?_append_left hlt] at hd
      exact absurd (List.mem_map.mpr ⟨d, List.mem_of_getElem? hd, hname⟩) hnot
    · rw [List.getElem?_append_right (Nat.le_refl _), Nat.sub_self] at hd
      cases hd
      exact absurd hname.symm hne
    · exact hgt
  · intro hlt hmem
    obtain ⟨i, hilt, hi⟩ := h.exists_lt hmem
    have hij := Option.some.inj (hi.symm.trans hj)
    omega

/-- Numbering fails where two classes share a name or one is named like the main class. -/
theorem Numbers.declareAll (h : Numbers declared cs) (mainName : String) (rest : List ClassDecl) :
    (∃ e, Forest.checkNames mainName (cs.reverse.map (·.name)) rest = .error e ∧
      declareAll mainName cs.length declared rest = .error e) ∨
    Forest.checkNames mainName (cs.reverse.map (·.name)) rest = .ok () ∧
      ∃ declared', declareAll mainName cs.length declared rest = .ok declared' ∧ Numbers declared' (cs ++ rest) := by
  induction rest generalizing cs declared with
  | nil => exact .inr ⟨rfl, declared, rfl, by rwa [List.append_nil]⟩
  | cons c rest ih =>
      have hseen : (declared.lookup c.name).isSome = true ↔ c.name ∈ cs.reverse.map (·.name) := by
        rw [Option.isSome_iff_exists, ← h.mem_iff, List.map_reverse, List.mem_reverse]
      unfold Forest.checkNames ForestBuilder.declareAll
      by_cases hmain : c.name = mainName
      · rw [if_pos hmain, if_pos hmain]
        exact .inl ⟨_, rfl, rfl⟩
      · rw [if_neg hmain, if_neg hmain]
        by_cases hmem : c.name ∈ cs.reverse.map (·.name)
        · rw [if_pos hmem, if_pos (hseen.mpr hmem)]
          exact .inl ⟨_, rfl, rfl⟩
        · rw [if_neg hmem, if_neg (mt hseen.mp hmem)]
          have hnew : c.name ∉ cs.map (·.name) := by rwa [List.map_reverse, List.mem_reverse] at hmem
          have hrest := ih (h.cons hnew)
          rwa [List.length_append, List.length_singleton, List.reverse_append, List.reverse_singleton,
            List.singleton_append, List.map_cons, List.append_assoc, List.singleton_append] at hrest

/-! ### One insertion -/

theorem getElem?_decls (b : ForestBuilder) (id : TreeId) : b.decls[id]? = (b.trees[id]?).map (·.decl) := by
  rw [ForestBuilder.decls, List.getElem?_map, Array.getElem?_toList]

theorem Sound.size (h : b.Sound cs) : b.trees.size = cs.length := by
  rw [← h.decls, ForestBuilder.decls, List.length_map, Array.length_toList]

theorem Sound.decl (h : b.Sound cs) (ht : b.trees[id]? = some t) : cs[id]? = some t.decl := by
  rw [← h.decls, getElem?_decls, ht, Option.map_some]

theorem Sound.exists_tree (h : b.Sound cs) (hc : cs[id]? = some c) : ∃ t, b.trees[id]? = some t ∧ t.decl = c := by
  rw [← h.decls, getElem?_decls] at hc
  exact Option.map_eq_some_iff.mp hc

theorem Sound.parent_lt (h : b.Sound cs) {q : TreeId} (hq : b.parent? id = some q) : q < id := by
  obtain ⟨t, ht, hparent⟩ := Option.bind_eq_some_iff.mp hq
  exact (h.older id t q ht hparent).1

/-- The new tree stands last, and only the children of its parent have changed. -/
theorem tree_of_attach (hparent : ∀ q, parent = some q → q < b.trees.size)
    (ht : (b.attach c parent).trees[id]? = some t) :
    (id = b.trees.size ∧ t = ⟨c, parent, []⟩) ∨
      ∃ u, b.trees[id]? = some u ∧ t.decl = u.decl ∧ t.parent = u.parent ∧
        t.children = u.children ++ if parent = some id then [b.trees.size] else [] := by
  cases parent with
  | none =>
      rw [attach, Array.getElem?_push] at ht
      split_ifs at ht with hid
      · exact .inl ⟨hid, (Option.some.inj ht).symm⟩
      · exact .inr ⟨t, ht, rfl, rfl, by simp⟩
  | some q =>
      have hq := hparent q rfl
      rw [attach, Array.getElem?_modify, Array.getElem?_push] at ht
      split_ifs at ht with hqid hid hid
      · exact absurd (hqid.trans hid) (Nat.ne_of_lt hq)
      · obtain ⟨u, hu, rfl⟩ := Option.map_eq_some_iff.mp ht
        exact .inr ⟨u, hu, rfl, rfl, by rw [if_pos (congrArg some hqid)]⟩
      · exact .inl ⟨hid, (Option.some.inj ht).symm⟩
      · refine .inr ⟨t, ht, rfl, rfl, ?_⟩
        rw [if_neg fun heq => hqid (Option.some.inj heq), List.append_nil]

theorem size_attach : (b.attach c parent).trees.size = b.trees.size + 1 := by
  cases parent with
  | none => exact Array.size_push _
  | some q => rw [attach, Array.size_modify, Array.size_push]

theorem byName_attach : (b.attach c parent).byName = (c.name, b.trees.size) :: b.byName := by
  cases parent <;> rfl

theorem roots_attach :
    (b.attach c parent).roots = b.roots ++ if parent = none then [b.trees.size] else [] := by
  cases parent with
  | none => rfl
  | some q => exact (List.append_nil _).symm

theorem exists_tree_of_attach (c : ClassDecl) (parent : Option TreeId) (hid : id < b.trees.size + 1) :
    ∃ t, (b.attach c parent).trees[id]? = some t :=
  ⟨_, Array.getElem?_eq_getElem (by rwa [size_attach])⟩

theorem parent?_attach (hparent : ∀ q, parent = some q → q < b.trees.size) (id : TreeId) :
    (b.attach c parent).parent? id = if id = b.trees.size then parent else b.parent? id := by
  by_cases hid : id < b.trees.size + 1
  · obtain ⟨t, ht⟩ := exists_tree_of_attach c parent hid
    rw [ForestBuilder.parent?, ht, Option.bind_some]
    rcases tree_of_attach hparent ht with ⟨rfl, rfl⟩ | ⟨u, hu, _, hsame, _⟩
    · rw [if_pos rfl]
    · have hlt := (Array.getElem?_eq_some_iff.mp hu).1
      rw [if_neg (Nat.ne_of_lt hlt), ForestBuilder.parent?, hu, Option.bind_some, hsame]
  · have hge : b.trees.size + 1 ≤ id := Nat.not_lt.mp hid
    rw [if_neg (Nat.ne_of_gt hge), ForestBuilder.parent?, ForestBuilder.parent?,
      Array.getElem?_eq_none (by rwa [size_attach]), Array.getElem?_eq_none (Nat.le_of_succ_le hge)]

theorem decls_attach (hparent : ∀ q, parent = some q → q < b.trees.size) :
    (b.attach c parent).decls = b.decls ++ [c] := by
  have hlength : b.decls.length = b.trees.size := by
    rw [ForestBuilder.decls, List.length_map, Array.length_toList]
  apply List.ext_getElem?
  intro id
  by_cases hid : id < b.trees.size + 1
  · obtain ⟨t, ht⟩ := exists_tree_of_attach c parent hid
    rw [getElem?_decls, ht, Option.map_some]
    symm
    rw [Forest.getElem?_concat_eq_some]
    rcases tree_of_attach hparent ht with ⟨rfl, rfl⟩ | ⟨u, hu, hsame, _⟩
    · exact .inr ⟨hlength.symm, rfl⟩
    · exact .inl (by rw [getElem?_decls, hu, Option.map_some, hsame])
  · have hge : b.trees.size + 1 ≤ id := Nat.not_lt.mp hid
    rw [getElem?_decls, Array.getElem?_eq_none (by rwa [size_attach]), Option.map_none,
      List.getElem?_eq_none (by rwa [List.length_append, hlength])]

/-- What is asked of the parents of all trees is asked of those so far and of the new one. -/
theorem filter_attach (hparent : ∀ q, parent = some q → q < b.trees.size) (x : Option TreeId) :
    ((List.range (b.trees.size + 1)).filter fun k => (b.attach c parent).parent? k = x) =
      ((List.range b.trees.size).filter fun k => b.parent? k = x) ++ if parent = x then [b.trees.size] else [] := by
  have hold : ((List.range b.trees.size).filter fun k => (b.attach c parent).parent? k = x) =
      (List.range b.trees.size).filter fun k => b.parent? k = x := by
    apply List.filter_congr
    intro k hk
    rw [parent?_attach hparent, if_neg (Nat.ne_of_lt (List.mem_range.mp hk))]
  have hlast : ([b.trees.size].filter fun k => (b.attach c parent).parent? k = x) =
      if parent = x then [b.trees.size] else [] := by
    simp only [List.filter_cons, List.filter_nil, parent?_attach hparent, if_true, decide_eq_true_eq]
  rw [List.range_succ, List.filter_append, hold, hlast]

/-- What is found under the name of a superclass is the number of that class. -/
theorem Sound.super_of_lookup (h : b.Sound cs) {q : TreeId} (hq : c.superName.bind (b.byName.lookup ·) = some q) :
    ∃ d, cs[q]? = some d ∧ c.superName = some d.name := by
  obtain ⟨s, hs, hlookup⟩ := Option.bind_eq_some_iff.mp hq
  obtain ⟨d, hd, rfl⟩ := (h.byName s q).mp hlookup
  exact ⟨d, hd, hs⟩

/-- Nothing is found only if nothing is looked for. -/
theorem Sound.lookup_eq_none_iff (h : b.Sound cs) (hsuper : ∀ s, c.superName = some s → s ∈ cs.map (·.name)) :
    c.superName.bind (b.byName.lookup ·) = none ↔ c.superName = none := by
  rw [Option.bind_eq_none_iff, Option.eq_none_iff_forall_ne_some]
  refine forall_congr' fun s => ⟨fun hnone hs => ?_, fun hne hs => absurd hs hne⟩
  obtain ⟨q, hlookup⟩ := h.byName.mem_iff.mp (hsuper s hs)
  rw [hnone hs] at hlookup
  cases hlookup

/-- An insertion under the superclass keeps the trees sound. -/
theorem Sound.attach (h : b.Sound cs) (hnew : c.name ∉ cs.map (·.name))
    (hsuper : ∀ s, c.superName = some s → s ∈ cs.map (·.name)) :
    (b.attach c (c.superName.bind (b.byName.lookup ·))).Sound (cs ++ [c]) := by
  have hold := fun q => h.super_of_lookup (c := c) (q := q)
  have htop := h.lookup_eq_none_iff hsuper
  generalize c.superName.bind (b.byName.lookup ·) = parent at hold htop ⊢
  have hparent : ∀ q, parent = some q → q < b.trees.size := by
    intro q hq
    obtain ⟨d, hd, _⟩ := hold q hq
    rw [h.size]
    exact (List.getElem?_eq_some_iff.mp hd).1
  have hlength : (cs ++ [c]).length = b.trees.size + 1 := by rw [List.length_append, h.size, List.length_singleton]
  refine ⟨?_, ?_, fun id t ht => ?_, fun id t q ht htq => ?_, fun id t ht => ?_, ?_⟩
  · rw [decls_attach hparent, h.decls]
  · rw [byName_attach, h.size]
    exact h.byName.cons hnew
  · rcases tree_of_attach hparent ht with ⟨_, rfl⟩ | ⟨u, hu, hdecl, hsame, _⟩
    · exact htop
    · rw [hdecl, hsame]
      exact h.top id u hu
  · rcases tree_of_attach hparent ht with ⟨rfl, rfl⟩ | ⟨u, hu, hdecl, hsame, _⟩
    · obtain ⟨d, hd, hs⟩ := hold q htq
      exact ⟨hparent q htq, d, Forest.getElem?_concat_eq_some.mpr (.inl hd), hs⟩
    · rw [hsame] at htq
      obtain ⟨hlt, d, hd, hs⟩ := h.older id u q hu htq
      rw [hdecl]
      exact ⟨hlt, d, Forest.getElem?_concat_eq_some.mpr (.inl hd), hs⟩
  · rw [hlength, filter_attach hparent]
    rcases tree_of_attach hparent ht with ⟨rfl, rfl⟩ | ⟨u, hu, _, _, hchildren⟩
    -- a new tree has no children: parents are older
    · rw [if_neg fun heq => Nat.lt_irrefl _ (hparent _ heq), List.append_nil]
      symm
      rw [List.filter_eq_nil_iff]
      intro k hk hkq
      exact Nat.lt_asymm (h.parent_lt (of_decide_eq_true hkq)) (List.mem_range.mp hk)
    · rw [hchildren, h.children id u hu, h.size]
  · rw [hlength, filter_attach hparent, roots_attach, h.roots, h.size]

/-- A class is put under its superclass, or it is refused as it is in the forest. -/
theorem parentFor_eq (b : ForestBuilder) (hdeclared : Numbers declared (cs ++ c :: rest)) :
    b.parentFor declared cs.length c =
      (Forest.checkSuper ((cs ++ c :: rest).map (·.name)) (cs.reverse.map (·.name)) c).map fun _ =>
        c.superName.bind (b.byName.lookup ·) := by
  unfold parentFor Forest.checkSuper
  cases c.superName with
  | none => rfl
  | some s =>
      simp only [List.map_reverse, List.mem_reverse, Option.bind_some]
      by_cases hself : s = c.name
      · rw [if_pos hself, if_pos hself]
        rfl
      rw [if_neg hself, if_neg hself]
      by_cases hmem : s ∈ (cs ++ c :: rest).map (·.name)
      · obtain ⟨j, hj⟩ := hdeclared.mem_iff.mp hmem
        simp only [hj, hmem, not_true_eq_false, if_false, hdeclared.not_mem_iff_lt hj hself]
        split_ifs <;> rfl
      · have hnone : declared.lookup s = none := by
          rw [Option.eq_none_iff_forall_ne_some]
          exact fun j hj => hmem (hdeclared.mem_iff.mpr ⟨j, hj⟩)
        simp only [hnone, hmem, not_false_eq_true, if_true]
        rfl

/-- All insertions keep the trees sound, or the first class that does not fit is reported. -/
theorem Sound.insertAll (h : b.Sound cs) (hdeclared : Numbers declared (cs ++ rest)) :
    (∃ e, Forest.checkSupers ((cs ++ rest).map (·.name)) (cs.reverse.map (·.name)) rest = .error e ∧
      insertAll declared cs.length b rest = .error e) ∨
    Forest.checkSupers ((cs ++ rest).map (·.name)) (cs.reverse.map (·.name)) rest = .ok () ∧
      ∃ b', insertAll declared cs.length b rest = .ok b' ∧ b'.Sound (cs ++ rest) := by
  induction rest generalizing b cs with
  | nil => exact .inr ⟨rfl, b, rfl, by rwa [List.append_nil]⟩
  | cons c rest ih =>
      have hparent := b.parentFor_eq hdeclared
      unfold Forest.checkSupers ForestBuilder.insertAll
      cases hcheck : Forest.checkSuper ((cs ++ c :: rest).map (·.name)) (cs.reverse.map (·.name)) c with
      | error e =>
          rw [hcheck] at hparent
          rw [hparent]
          exact .inl ⟨e, rfl, rfl⟩
      | ok u =>
          rw [hcheck] at hparent
          rw [hparent]
          have hsuper : ∀ s, c.superName = some s → s ∈ cs.map (·.name) := by
            intro s hs
            have hmem := Forest.checkSuper_eq_ok hcheck s hs
            rwa [List.map_reverse, List.mem_reverse] at hmem
          have happend : cs ++ c :: rest = cs ++ [c] ++ rest := by rw [List.append_assoc, List.singleton_append]
          rw [happend] at hdeclared ⊢
          have hrest := ih (h.attach (happend ▸ hdeclared).name_not_mem hsuper) hdeclared
          rwa [List.length_append, List.length_singleton, List.reverse_append, List.reverse_singleton,
            List.singleton_append, List.map_cons] at hrest

theorem sound_start : start.Sound [] where
  decls := rfl
  byName := by simp [Numbers, start]
  top _ _ ht := by cases ht
  older _ _ _ ht _ := by cases ht
  children _ _ ht := by cases ht
  roots := rfl

/-- The construction ends with sound trees, or with the fault that the program has no forest for. -/
theorem build_cases (p : Program) :
    (∃ e, Forest.ofProgram p = .error e ∧ build p = .error e) ∨
      ∃ b, Forest.ofProgram p = .ok ⟨p.classes⟩ ∧ build p = .ok b ∧ b.Sound p.classes := by
  rcases sound_start.byName.declareAll p.main.name p.classes with
    ⟨e, hnames, hdeclare⟩ | ⟨hnames, declared, hdeclare, hdeclared⟩
  · exact .inl ⟨e, bind_eq_error.mpr (.inl hnames), bind_eq_error.mpr (.inl hdeclare)⟩
  · rcases sound_start.insertAll hdeclared with ⟨e, hsupers, hinsert⟩ | ⟨hsupers, b, hinsert, hb⟩
    · refine .inl ⟨e, bind_eq_error.mpr (.inr ⟨(), hnames, bind_eq_error.mpr (.inl hsupers)⟩), ?_⟩
      exact bind_eq_error.mpr (.inr ⟨declared, hdeclare, hinsert⟩)
    · refine .inr ⟨b, bind_eq_ok.mpr ⟨(), hnames, bind_eq_ok.mpr ⟨(), hsupers, rfl⟩⟩, ?_, hb⟩
      exact bind_eq_ok.mpr ⟨declared, hdeclare, hinsert⟩

theorem Sound.tree?_eq_some_iff (h : b.Sound cs) :
    b.tree? name = some t ↔ ∃ id : TreeId, b.trees[id]? = some t ∧ t.decl.name = name := by
  rw [tree?, Option.bind_eq_some_iff]
  refine exists_congr fun id => ?_
  rw [h.byName name id]
  constructor
  · rintro ⟨⟨c, hc, hname⟩, ht⟩
    cases (h.decl ht).symm.trans hc
    exact ⟨ht, hname⟩
  · rintro ⟨ht, hname⟩
    exact ⟨⟨t.decl, h.decl ht, hname⟩, ht⟩

/-- One tree is the parent of another exactly if its class is the superclass. -/
theorem Sound.parent?_eq_some_iff (h : b.Sound cs) {k : TreeId} {u : ForestTree} (hu : b.trees[k]? = some u)
    (ht : b.trees[id]? = some t) : b.parent? k = some id ↔ u.decl.superName = some t.decl.name := by
  rw [ForestBuilder.parent?, hu, Option.bind_some]
  constructor
  · intro hparent
    obtain ⟨_, d, hd, hs⟩ := h.older k u id hu hparent
    cases (h.decl ht).symm.trans hd
    exact hs
  · intro hs
    cases hparent : u.parent with
    | none =>
        rw [(h.top k u hu).mp hparent] at hs
        cases hs
    | some q =>
        obtain ⟨_, d, hd, hsuper⟩ := h.older k u q hu hparent
        have hname : d.name = t.decl.name := Option.some.inj (hsuper.symm.trans hs)
        have hq := (h.byName d.name q).mpr ⟨d, hd, rfl⟩
        exact hq.symm.trans ((h.byName d.name id).mpr ⟨t.decl, h.decl ht, hname.symm⟩)

/-- The way up from a tree ends at a tree without a parent. -/
theorem Climbs.exists_top {L : List ClassDecl} {x : Option TreeId} (hL : b.Climbs x L) (hx : x ≠ none) :
    ∃ (r : TreeId) (u : ForestTree), b.trees[r]? = some u ∧ u.parent = none ∧ L.getLast? = some u.decl := by
  induction hL with
  | top => exact absurd rfl hx
  | @up id t L ht hL ih =>
      by_cases hparent : t.parent = none
      · rw [hparent] at hL
        cases hL
        exact ⟨id, t, ht, hparent, rfl⟩
      · obtain ⟨r, u, hu, htop, hlast⟩ := ih hparent
        refine ⟨r, u, hu, htop, ?_⟩
        rw [List.getLast?_cons, hlast, Option.getD_some]

theorem Climbs.head? {L : List ClassDecl} {x : Option TreeId} (hL : b.Climbs x L) :
    L.head? = x.bind fun q => (b.trees[q]?).map (·.decl) := by
  cases hL with
  | top => rfl
  | up ht _ => rw [List.head?_cons, Option.bind_some, ht, Option.map_some]

end

/-! ### Trees and the forest -/

/-- The questions that a forest answers are answered by the trees. -/
structure Agrees (b : ForestBuilder) (F : Forest) : Prop where
  classes : F.classes = b.decls
  find? : ∀ name, F.find? name = (b.tree? name).map (·.decl)
  parent? : ∀ name,
    F.parent? name = ((b.tree? name).bind (·.parent)).bind fun q => (b.trees[q]?).map (·.decl)
  ancestors : ∀ name, b.Climbs ((b.tree? name).bind (·.parent)) (F.ancestors name)
  roots : F.roots = b.roots.filterMap fun r => (b.trees[r]?).map (·.decl)
  children : ∀ name t, b.tree? name = some t →
    F.children name = t.children.filterMap fun k => (b.trees[k]?).map (·.decl)
  family : ∀ name, b.Collects (b.byName.lookup name).toList (F.family name)

section
variable {b : ForestBuilder} {F : Forest} {id : TreeId} {t : ForestTree}

theorem Sound.mem (h : b.Sound F.classes) (ht : b.trees[id]? = some t) : t.decl ∈ F.classes :=
  List.mem_of_getElem? (h.decl ht)

theorem Sound.find?_eq (h : b.Sound F.classes) (hF : Forest.Ordered F.classes.reverse) (name : String) :
    F.find? name = (b.tree? name).map (·.decl) := by
  ext c
  rw [Forest.find?_eq_some_iff hF, Option.map_eq_some_iff]
  constructor
  · rintro ⟨hc, hname⟩
    obtain ⟨id, hid⟩ := List.getElem?_of_mem hc
    obtain ⟨t, ht, rfl⟩ := h.exists_tree hid
    exact ⟨t, h.tree?_eq_some_iff.mpr ⟨id, ht, hname⟩, rfl⟩
  · rintro ⟨t, ht, rfl⟩
    obtain ⟨id, hid, hname⟩ := h.tree?_eq_some_iff.mp ht
    exact ⟨h.mem hid, hname⟩

/-- Going from parent to parent, one meets the ancestors of a class. -/
theorem Sound.climbs (h : b.Sound F.classes) (hF : Forest.Ordered F.classes.reverse) (ht : b.trees[id]? = some t) :
    b.Climbs (some id) (F.lineage t.decl.name) := by
  -- parents are older, so the induction goes over the number of the tree
  induction id using Nat.strong_induction_on generalizing t with
  | h id ih =>
      rw [Forest.lineage_of_mem hF (h.mem ht)]
      refine .up ht ?_
      cases hparent : t.parent with
      | none =>
          rw [(h.top id t ht).mp hparent]
          exact .top
      | some q =>
          obtain ⟨hlt, d, hd, hs⟩ := h.older id t q ht hparent
          obtain ⟨u, hu, rfl⟩ := h.exists_tree hd
          rw [hs]
          exact ih q hlt hu

theorem Sound.climbs_ancestors (h : b.Sound F.classes) (hF : Forest.Ordered F.classes.reverse) (name : String) :
    b.Climbs ((b.tree? name).bind (·.parent)) (F.ancestors name) := by
  cases hname : b.tree? name with
  | none =>
      have hfind := h.find?_eq hF name
      rw [hname, Option.map_none] at hfind
      have hnil : F.lineage name = [] := by
        by_contra hne
        have hcontains := Forest.contains_iff.mpr hne
        rw [Forest.contains, hfind] at hcontains
        cases hcontains
      rw [Forest.ancestors, hnil]
      exact .top
  | some t =>
      obtain ⟨id, ht, rfl⟩ := h.tree?_eq_some_iff.mp hname
      have hclimbs := h.climbs hF ht
      rw [Forest.ancestors]
      generalize F.lineage t.decl.name = L at hclimbs
      cases hclimbs with
      | up ht' hL =>
          cases ht.symm.trans ht'
          exact hL

theorem filterMap_getElem?_range {α : Type} (l : List α) : (List.range l.length).filterMap (l[·]?) = l := by
  induction l using List.reverseRecOn with
  | nil => rfl
  | append_singleton l x ih =>
      have hold : (List.range l.length).filterMap ((l ++ [x])[·]?) = (List.range l.length).filterMap (l[·]?) := by
        apply List.filterMap_congr
        intro k hk
        rw [List.getElem?_append_left (List.mem_range.mp hk)]
      rw [List.length_append, List.length_singleton, List.range_succ, List.filterMap_append, hold, ih]
      simp

/-- What is asked of all classes is asked of their trees, number by number. -/
theorem Sound.filter_classes (h : b.Sound F.classes) {P : ClassDecl → Bool} {Q : TreeId → Bool}
    (hPQ : ∀ (k : TreeId) t, b.trees[k]? = some t → P t.decl = Q k) :
    F.classes.filter P =
      ((List.range F.classes.length).filter Q).filterMap fun k => (b.trees[k]?).map (·.decl) := by
  calc F.classes.filter P
      = ((List.range F.classes.length).filterMap (F.classes[·]?)).filter P := by
        rw [filterMap_getElem?_range]
    _ = (List.range F.classes.length).filterMap fun k => (F.classes[k]?).filter P := by
        rw [List.filter_filterMap]
    _ = (List.range F.classes.length).filterMap fun k => if Q k then (b.trees[k]?).map (·.decl) else none := by
        apply List.filterMap_congr
        intro k hk
        obtain ⟨t, ht, _⟩ := h.exists_tree (List.getElem?_eq_getElem (List.mem_range.mp hk))
        rw [h.decl ht, ht, Option.filter_some, hPQ k t ht, Option.map_some]
    _ = ((List.range F.classes.length).filter Q).filterMap fun k => (b.trees[k]?).map (·.decl) := by
        rw [List.filterMap_filter]

theorem Sound.roots_eq (h : b.Sound F.classes) :
    F.roots = b.roots.filterMap fun r => (b.trees[r]?).map (·.decl) := by
  rw [Forest.roots, h.roots]
  apply h.filter_classes
  intro k t ht
  rw [ForestBuilder.parent?, ht, Option.bind_some, Bool.eq_iff_iff, Option.isNone_iff_eq_none, decide_eq_true_eq]
  exact (h.top k t ht).symm

theorem Sound.children_eq (h : b.Sound F.classes) {name : String} (hname : b.tree? name = some t) :
    F.children name = t.children.filterMap fun k => (b.trees[k]?).map (·.decl) := by
  obtain ⟨id, ht, rfl⟩ := h.tree?_eq_some_iff.mp hname
  rw [Forest.children, h.children id t ht]
  apply h.filter_classes
  intro k u hu
  rw [decide_eq_decide]
  exact (h.parent?_eq_some_iff hu ht).symm

/-- The children of a tree stand behind it. -/
theorem Sound.children_behind (h : b.Sound F.classes) (ht : b.trees[id]? = some t) :
    t.children = (List.range' (id + 1) (F.classes.length - (id + 1))).filter fun k => b.parent? k = some id := by
  have hlt := (List.getElem?_eq_some_iff.mp (h.decl ht)).1
  have hfront : ((List.range' 0 (id + 1)).filter fun k => b.parent? k = some id) = [] := by
    rw [List.filter_eq_nil_iff]
    intro k hk hparent
    rw [← List.range_eq_range', List.mem_range] at hk
    exact Nat.not_lt.mpr (Nat.lt_succ_iff.mp hk) (h.parent_lt (of_decide_eq_true hparent))
  have hrange : List.range F.classes.length =
      List.range' 0 (id + 1) ++ List.range' (id + 1) (F.classes.length - (id + 1)) := by
    rw [List.range_eq_range', ← Nat.add_sub_cancel' (Nat.succ_le_of_lt hlt), ← List.range'_append_1]
    simp
  rw [h.children id t ht, hrange, List.filter_append, hfront, List.nil_append]

/-- Among the trees from `m` on, going down from those whose parent is in front meets the descendants of this one. -/
theorem Sound.collects_descendants (h : b.Sound F.classes) {later : List ClassDecl} {m : Nat}
    (hlater : F.classes.drop m = later) (hid : id < m) (ht : b.trees[id]? = some t) :
    b.Collects ((List.range' m later.length).filter fun k => b.parent? k = some id)
      (Forest.descendantsIn later t.decl.name) := by
  induction later generalizing m id t with
  | nil => exact .nil
  | cons c later ih =>
      obtain ⟨hc, hrest⟩ : F.classes[m]? = some c ∧ F.classes.drop (m + 1) = later := by
        rw [← List.drop_drop, hlater, ← List.head?_drop, hlater]
        exact ⟨rfl, rfl⟩
      obtain ⟨u, hu, rfl⟩ := h.exists_tree hc
      have hbeside := ih hrest (Nat.lt_succ_of_lt hid) ht
      rw [Forest.descendantsIn, List.length_cons, List.range'_succ, List.filter_cons]
      simp only [h.parent?_eq_some_iff hu ht, decide_eq_true_eq]
      split_ifs with hs
      · refine .cons hu ?_ hbeside
        have hlength : F.classes.length - (m + 1) = later.length := by rw [← hrest, List.length_drop]
        rw [h.children_behind hu, hlength]
        exact ih hrest (Nat.lt_succ_self m) hu
      · exact hbeside

theorem Sound.collects_family (h : b.Sound F.classes) (hF : Forest.Ordered F.classes.reverse) (name : String) :
    b.Collects (b.byName.lookup name).toList (F.family name) := by
  cases hname : b.byName.lookup name with
  | none =>
      have hcontains : F.contains name = false := by
        rw [Forest.contains, h.find?_eq hF, tree?, hname]
        rfl
      rw [Forest.family_eq_nil hcontains]
      exact .nil
  | some id =>
      obtain ⟨c, hc, rfl⟩ := (h.byName name id).mp hname
      obtain ⟨front, later, hsplit, _, hfamily⟩ := Forest.exists_family hF (List.mem_of_getElem? hc)
      have hfront : F.classes[front.length]? = some c := by rw [hsplit]; simp
      cases ((h.byName c.name front.length).mpr ⟨c, hfront, rfl⟩).symm.trans hname
      obtain ⟨t, ht, rfl⟩ := h.exists_tree hfront
      have hdrop : F.classes.drop (front.length + 1) = later := by rw [hsplit]; simp
      have hlength : F.classes.length - (front.length + 1) = later.length := by rw [← hdrop, List.length_drop]
      have hbelow := h.collects_descendants hdrop (Nat.lt_succ_self _) ht
      rw [← hlength, ← h.children_behind ht] at hbelow
      rw [hfamily]
      simpa using Collects.cons ht hbelow .nil

theorem Sound.agrees (h : b.Sound F.classes) (hF : Forest.Ordered F.classes.reverse) : b.Agrees F where
  classes := h.decls.symm
  find? := h.find?_eq hF
  parent? name := (h.climbs_ancestors hF name).head?
  ancestors := h.climbs_ancestors hF
  roots := h.roots_eq
  children _ _ := h.children_eq
  family := h.collects_family hF

end

/-- The construction succeeds if and only if class names differ, none is that of the main class, and every superclass
is named by a class in front; otherwise it fails as the forest of the program does. The trees stand in the order of
the declarations. The parent of a tree is the tree of the class that it extends and has a smaller number; its children
are the trees whose parent it is, and the roots are those that extend none, both in the order of the declarations. What
is asked of the forest is answered by the trees. No class extends itself over any number of steps, and every way up
ends at a root. -/
theorem forest_iff_declared_in_order (p : Program) :
    ((∃ b, build p = .ok b) ↔
      (p.classes.map (·.name)).Nodup ∧ (∀ c ∈ p.classes, c.name ≠ p.main.name) ∧
      ∀ i c, p.classes[i]? = some c → ∀ s, c.superName = some s → s ∈ (p.classes.take i).map (·.name)) ∧
    (∀ e, build p = .error e ↔ Forest.ofProgram p = .error e) ∧
    ∀ b, build p = .ok b →
      b.decls = p.classes ∧
      (∀ (id : TreeId) t, b.trees[id]? = some t →
        b.tree? t.decl.name = some t ∧
        (t.parent = none ↔ t.decl.superName = none) ∧
        (∀ q, t.parent = some q → q < id ∧ ∃ u, b.trees[q]? = some u ∧ t.decl.superName = some u.decl.name) ∧
        t.children = (List.range b.trees.size).filter fun k => b.parent? k = some id) ∧
      b.roots = (List.range b.trees.size).filter (fun k => (p.classes[k]?).bind (·.superName) = none) ∧
      ∃ F, Forest.ofProgram p = .ok F ∧ b.Agrees F ∧ (∀ C, ¬ Relation.TransGen F.Extends C C) ∧
        ∀ (id : TreeId) t, b.trees[id]? = some t →
          ∃ L, b.Climbs (some id) L ∧ F.Ascent t.decl L ∧
            ∃ r ∈ b.roots, ∃ u, b.trees[r]? = some u ∧ L.getLast? = some u.decl := by
  refine ⟨?_, fun e => ?_, fun b hb => ?_⟩
  · have hiff : (∃ b, build p = .ok b) ↔ Forest.ofProgram p = .ok ⟨p.classes⟩ := by
      rcases build_cases p with ⟨e, hF, he⟩ | ⟨b, hF, hb, _⟩
      · simp [hF, he]
      · simp [hF, hb]
    rw [hiff, Forest.ofProgram_eq_ok_iff, Forest.ordered_reverse_iff]
    tauto
  · rcases build_cases p with ⟨e', hF, he⟩ | ⟨b, hF, hb, _⟩
    · simp [hF, he]
    · simp [hF, hb]
  · obtain ⟨F, hF, h, rfl⟩ : ∃ F, Forest.ofProgram p = .ok F ∧ b.Sound F.classes ∧ F = ⟨p.classes⟩ := by
      rcases build_cases p with ⟨e, _, he⟩ | ⟨b', hF, hb', h⟩
      · cases he.symm.trans hb
      · cases hb'.symm.trans hb
        exact ⟨_, hF, h, rfl⟩
    obtain ⟨_, hordered, _⟩ := Forest.ofProgram_eq_ok hF
    refine ⟨h.decls, fun id t ht => ⟨?_, h.top id t ht, fun q hq => ?_, ?_⟩, ?_, _, hF, h.agrees hordered, ?_, ?_⟩
    · exact h.tree?_eq_some_iff.mpr ⟨id, ht, rfl⟩
    · obtain ⟨hlt, d, hd, hs⟩ := h.older id t q ht hq
      obtain ⟨u, hu, rfl⟩ := h.exists_tree hd
      exact ⟨hlt, u, hu, hs⟩
    · rw [h.size]
      exact h.children id t ht
    · rw [h.roots, h.size]
      apply List.filter_congr
      intro k hk
      obtain ⟨t, ht, _⟩ := h.exists_tree (List.getElem?_eq_getElem (List.mem_range.mp hk))
      rw [ForestBuilder.parent?, ht, h.decl ht, decide_eq_decide]
      exact h.top k t ht
    · exact fun C hcycle => absurd (Forest.length_lineage_lt hordered hcycle) (Nat.lt_irrefl _)
    · intro id t ht
      have hL := h.climbs hordered ht
      obtain ⟨r, u, hu, htop, hlast⟩ := hL.exists_top (Option.some_ne_none id)
      refine ⟨_, hL, (Forest.ascent_iff hordered).mpr ⟨h.mem ht, rfl⟩, r, ?_, u, hu, hlast⟩
      rw [h.roots, List.mem_filter, List.mem_range, decide_eq_true_eq, ForestBuilder.parent?, hu]
      exact ⟨(List.getElem?_eq_some_iff.mp (h.decl hu)).1, htop⟩

/-- Two trees: `B` and `E` extend `A`, and `C` extends `B`; `D` stands between them on its own. -/
def thicket : Program where
  main := ⟨⟨1, .origin⟩, "Main", "args", .block ⟨0, .origin⟩ []⟩
  classes :=
    [⟨⟨2, .origin⟩, "A", none, [], []⟩, ⟨⟨3, .origin⟩, "B", some "A", [], []⟩, ⟨⟨4, .origin⟩, "C", some "B", [], []⟩,
      ⟨⟨5, .origin⟩, "D", none, [], []⟩, ⟨⟨6, .origin⟩, "E", some "A", [], []⟩]
  span := .origin

theorem forest_iff_declared_in_order_thicket : ∃ b, build thicket = .ok b ∧
    (b.trees.toList.map fun t => (t.decl.name, t.parent, t.children)) =
      [("A", none, [1, 4]), ("B", some 0, [2]), ("C", some 1, []), ("D", none, []), ("E", some 0, [])] ∧
    b.roots = [0, 3] ∧
    ((thicket.classes.map (·.name)).Nodup ∧ (∀ c ∈ thicket.classes, c.name ≠ thicket.main.name) ∧
      ∀ i c, thicket.classes[i]? = some c → ∀ s, c.superName = some s →
        s ∈ (thicket.classes.take i).map (·.name)) ∧
    b.decls = thicket.classes ∧
    (∀ (id : TreeId) t, b.trees[id]? = some t →
      t.children = (List.range b.trees.size).filter fun k => b.parent? k = some id) ∧
    ∃ F, Forest.ofProgram thicket = .ok F ∧ b.Agrees F ∧ ∀ C, ¬ Relation.TransGen F.Extends C C := by
  have hshape : ((build thicket).toOption.map fun b =>
      (b.trees.toList.map fun t => (t.decl.name, t.parent, t.children), b.roots)) =
      some ([("A", none, [1, 4]), ("B", some 0, [2]), ("C", some 1, []), ("D", none, []), ("E", some 0, [])],
        [0, 3]) := by decide
  obtain ⟨hiff, _, htrees⟩ := forest_iff_declared_in_order thicket
  obtain ⟨b, hb, hshape⟩ := Option.map_eq_some_iff.mp hshape
  rw [toOption_eq_some] at hb
  obtain ⟨hshape, hroots⟩ := Prod.mk.inj hshape
  obtain ⟨hdecls, htree, _, F, hF, hagrees, hacyclic, _⟩ := htrees b hb
  refine ⟨b, hb, hshape, hroots, hiff.mp ⟨b, hb⟩, hdecls, fun id t ht => ?_, F, hF, hagrees, hacyclic⟩
  exact (htree id t ht).2.2.2

end ForestBuilder

end Demitasse
