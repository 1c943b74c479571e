import Demitasse.Proofs.ParentChains
import Demitasse.Proofs.Variables

/-! The construction of scopes, step by step. Scopes are opened one inside the other and filled while the program is
walked through; a class whose superclass is not there is put inside the root, and only the first such fault counts.
Whatever the classes are, no step opens a scope inside one that does not exist yet. Without a fault the construction
ends with the scopes of the program. -/

namespace Demitasse

open ScopeTable

/-- What is done next. -/
inductive ScopeStep where
  /-- declares the main class -/
  | mainItem (m : MainClass)
  /-- declares a class and goes to the scope that its own will lie in -/
  | classItem (c : ClassDecl)
  /-- opens a scope for a node inside the current one and goes there -/
  | enter (node : NodeId) (className : String)
  /-- makes the current scope that of a class -/
  | register (className : String)
  /-- puts a node into the current scope -/
  | place (node : NodeId)
  | declareVar (entry : String × VarBinding)
  | declareMethod (entry : String × MethodBinding)
  /-- goes back to the scope around the current one -/
  | leave
  /-- goes back to the root -/
  | home

/-- Scopes under construction. -/
structure ScopeBuilder where
  table : ScopeTable
  current : ScopeId
  /-- the first fault -/
  fault : Option (Located HierarchyFault)

/-- The root alone. -/
def ScopeTable.bare : ScopeTable :=
  ⟨#[⟨[], none, [], []⟩], ∅, [], []⟩

/-- The scope that a class is put in, the layout that it inherits, and the fault if its superclass is not there. -/
def ScopeTable.enclosing (t : ScopeTable) (c : ClassDecl) :
    ScopeId × Option Layout × Option (Located HierarchyFault) :=
  match c.superName with
  | none => (root, none, none)
  | some superName =>
    match t.classScope? superName, t.layout? superName with
    | some s, some layout => (s, some layout, none)
    | _, _ => (root, none, some ⟨c.node.span, .superclassUnavailable c.name superName⟩)

namespace ScopeBuilder

/-- The root, where construction starts. -/
def start : ScopeBuilder :=
  ⟨.bare, root, none⟩

/-- Takes a step. -/
def step (b : ScopeBuilder) : ScopeStep → ScopeBuilder
  | .mainItem m => { b with table.classes := b.table.classes ++ [(m.name, ⟨.empty m.name, m.node.id⟩)] }
  | .classItem c =>
    { table := { b.table with
        classes := b.table.classes ++ [(c.name, ⟨.ofClass c (b.table.enclosing c).2.1, c.node.id⟩)] }
      current := (b.table.enclosing c).1
      fault := b.fault.or (b.table.enclosing c).2.2 }
  | .enter node className =>
    { b with
      table.scopes := b.table.scopes.push ⟨b.table.chain b.current, some className, [], []⟩
      table.nodes := b.table.nodes.insert node b.table.scopes.size
      current := b.table.scopes.size }
  | .register className => { b with table.classScopes := (className, b.current) :: b.table.classScopes }
  | .place node => { b with table.nodes := b.table.nodes.insert node b.current }
  | .declareVar entry =>
    { b with table.scopes := b.table.scopes.modify b.current fun s => { s with vars := s.vars ++ [entry] } }
  | .declareMethod entry =>
    { b with table.scopes := b.table.scopes.modify b.current fun s => { s with methods := s.methods ++ [entry] } }
  | .leave => { b with current := (b.table.parent? b.current).getD root }
  | .home => { b with current := root }

/-- Takes steps one after the other. -/
def run (b : ScopeBuilder) (steps : List ScopeStep) : ScopeBuilder :=
  steps.foldl step b

/-- The scopes, if there was no fault. -/
def outcome (b : ScopeBuilder) : Except (Located HierarchyFault) ScopeTable :=
  match b.fault with
  | none => .ok b.table
  | some e => .error e

end ScopeBuilder

/-- Declares a variable in the current scope. -/
def VarDecl.scopeSteps (storage : Storage) (v : VarDecl) : List ScopeStep :=
  [.place v.node.id, .declareVar (v.bind storage)]

/-- What a method says about itself to its class. -/
def MethodDecl.bind (className : String) (m : MethodDecl) : String × MethodBinding :=
  (m.name, ⟨m.signature className, m.node.id⟩)

/-- Declares the parameters and variables of a method and places its nodes. -/
def MethodDecl.innerSteps (m : MethodDecl) : List ScopeStep :=
  m.formals.flatMap (VarDecl.scopeSteps .param) ++ m.locals.flatMap (VarDecl.scopeSteps .local)
    ++ (nodeIds (Stmt.visitsAll m.body ++ m.result.visits)).map .place

/-- Declares a method, with a scope of its own. -/
def MethodDecl.scopeSteps (className : String) (m : MethodDecl) : List ScopeStep :=
  .declareMethod (m.bind className) :: .enter m.node.id className :: (m.innerSteps ++ [.leave])

/-- Declares a class, and its fields and methods in a scope of its own. -/
def ClassDecl.scopeSteps (c : ClassDecl) : List ScopeStep :=
  .classItem c :: .enter c.node.id c.name :: .register c.name ::
    (c.fields.flatMap (VarDecl.scopeSteps .field) ++ c.methods.flatMap (MethodDecl.scopeSteps c.name) ++ [.home])

/-- Declares the main class, with a scope for its nodes. -/
def MainClass.scopeSteps (m : MainClass) : List ScopeStep :=
  .mainItem m :: .enter m.node.id m.name :: ((nodeIds m.body.visits).map .place ++ [.home])

/-- The construction of the scopes of a program. -/
def Program.scopeSteps (p : Program) : List ScopeStep :=
  p.main.scopeSteps ++ p.classes.flatMap ClassDecl.scopeSteps

namespace ScopeBuilder

/-- Every scope lies in an older one, and no number is known that is not that of a scope. -/
structure Sound (b : ScopeBuilder) : Prop where
  rooted : b.table.Rooted
  current : b.current < b.table.scopes.size
  classScopes : ∀ name s, b.table.classScope? name = some s → s < b.table.scopes.size

section
variable {b b' : ScopeBuilder} {t : ScopeTable} {s : ScopeId}

theorem sound_start : start.Sound where
  rooted := by
    refine ⟨rfl, fun s outer hs hne => absurd ?_ hne⟩
    exact Nat.lt_one_iff.mp (lt_size_of_outer? hs)
  current := Nat.zero_lt_one
  classScopes _ _ h := by cases h

theorem Sound.size_pos (h : b.Sound) : root < b.table.scopes.size :=
  Nat.zero_lt_of_lt h.current

/-- Only the scopes and the class scopes matter. -/
theorem Sound.congr (h : b.Sound) (houter : ∀ i, b'.table.outer? i = b.table.outer? i)
    (hsize : b'.table.scopes.size = b.table.scopes.size) (hclasses : b'.table.classScopes = b.table.classScopes)
    (hcurrent : b'.current < b.table.scopes.size) : b'.Sound := by
  refine ⟨h.rooted.congr houter, hsize ▸ hcurrent, fun name k hk => ?_⟩
  rw [classScope?, hclasses] at hk
  exact hsize ▸ h.classScopes name k hk

theorem outer?_modify {f : Scope → Scope} (hscopes : t.scopes = b.table.scopes.modify s f)
    (hf : ∀ scope, (f scope).outer = scope.outer) (i : ScopeId) : t.outer? i = b.table.outer? i := by
  rw [outer?, hscopes, Array.getElem?_modify, outer?]
  by_cases hi : s = i
  · rw [if_pos hi, Option.map_map]
    exact congrArg (Option.map · _) (funext hf)
  · rw [if_neg hi]

theorem outer?_push (scopes : Array Scope) (scope : Scope) (hscopes : t.scopes = scopes.push scope) (i : ScopeId) :
    t.outer? i = if i = scopes.size then some scope.outer else (scopes[i]?).map (·.outer) := by
  rw [outer?, hscopes, Array.getElem?_push]
  by_cases hi : i = scopes.size
  · rw [if_pos hi, if_pos hi]
    rfl
  · rw [if_neg hi, if_neg hi]

/-- A scope that is opened lies in an older one. -/
theorem Sound.rooted_push (h : b.Sound) {scope : Scope} (houter : scope.outer = b.table.chain b.current)
    (hscopes : t.scopes = b.table.scopes.push scope) : t.Rooted := by
  have hold : ∀ i ≠ b.table.scopes.size, t.outer? i = b.table.outer? i := by
    intro i hi
    rw [outer?_push _ _ hscopes, if_neg hi]
    rfl
  have hchain : ∀ i < b.table.scopes.size, t.chain i = b.table.chain i := by
    intro i hi
    rw [chain_eq, chain_eq, hold i (Nat.ne_of_lt hi)]
  refine ⟨(hold root (Nat.ne_of_lt h.size_pos)).trans h.rooted.top, fun i outer hi hne => ?_⟩
  by_cases hlast : i = b.table.scopes.size
  · rw [outer?_push _ _ hscopes, if_pos hlast, houter] at hi
    cases hi
    exact ⟨b.current, hlast ▸ h.current, (hchain _ h.current).symm⟩
  · rw [hold i hlast] at hi
    obtain ⟨q, hq, rfl⟩ := h.rooted.inner i outer hi hne
    exact ⟨q, hq, (hchain q (Nat.lt_trans hq (lt_size_of_outer? hi))).symm⟩

theorem Sound.enclosing_lt (h : b.Sound) (c : ClassDecl) : (b.table.enclosing c).1 < b.table.scopes.size := by
  rw [enclosing]
  split
  · exact h.size_pos
  split
  · rename_i hscope _
    exact h.classScopes _ _ hscope
  · exact h.size_pos

/-- Each step keeps the scopes sound. -/
theorem Sound.step (h : b.Sound) (next : ScopeStep) : (b.step next).Sound := by
  cases next with
  | mainItem m => exact h.congr (fun _ => rfl) rfl rfl h.current
  | classItem c => exact h.congr (fun _ => rfl) rfl rfl (h.enclosing_lt c)
  | place node => exact h.congr (fun _ => rfl) rfl rfl h.current
  | home => exact h.congr (fun _ => rfl) rfl rfl h.size_pos
  | declareVar entry =>
      have houter := outer?_modify (t := (b.step (.declareVar entry)).table)
        (f := fun s => { s with vars := s.vars ++ [entry] }) rfl fun _ => rfl
      exact h.congr houter Array.size_modify rfl h.current
  | declareMethod entry =>
      have houter := outer?_modify (t := (b.step (.declareMethod entry)).table)
        (f := fun s => { s with methods := s.methods ++ [entry] }) rfl fun _ => rfl
      exact h.congr houter Array.size_modify rfl h.current
  | leave =>
      refine h.congr (fun _ => rfl) rfl rfl ?_
      rw [ScopeBuilder.step]
      by_cases hroot : b.current = root
      · rw [hroot, h.rooted.parent?_root]
        exact h.size_pos
      · obtain ⟨q, hq, hparent, -⟩ := h.rooted.exists_parent? h.current hroot
        rw [hparent]
        exact Nat.lt_trans hq h.current
  | enter node className =>
      have hsize : b.table.scopes.size < (b.step (.enter node className)).table.scopes.size := by
        rw [ScopeBuilder.step, Array.size_push]
        exact Nat.lt_succ_self _
      exact ⟨h.rooted_push rfl rfl, hsize, fun name k hk => Nat.lt_trans (h.classScopes name k hk) hsize⟩
  | register className =>
      refine ⟨h.rooted.congr fun _ => rfl, h.current, fun name k hk => ?_⟩
      rw [classScope?, ScopeBuilder.step, Table.lookup_cons] at hk
      split at hk
      · cases hk
        exact h.current
      · exact h.classScopes name k hk

theorem Sound.run (h : b.Sound) (steps : List ScopeStep) : (b.run steps).Sound := by
  induction steps generalizing b with
  | nil => exact h
  | cons next steps ih => exact ih (h.step next)

end

/-! ### Where the steps lead -/

section
variable {A B : Array Scope} {nodes : Std.TreeMap NodeId ScopeId} {cs : List (String × ScopeId)}
  {ks : List (String × ClassBinding)} {f : Option (Located HierarchyFault)} {scope : Scope}

theorem run_append (b : ScopeBuilder) (steps more : List ScopeStep) :
    b.run (steps ++ more) = (b.run steps).run more :=
  List.foldl_append

theorem modify_push_append (A B : Array Scope) (scope : Scope) (f : Scope → Scope) :
    (A.push scope ++ B).modify A.size f = A.push (f scope) ++ B := by
  apply Array.ext_getElem?
  intro i
  rw [Array.getElem?_modify, Array.getElem?_append, Array.getElem?_append, Array.size_push, Array.size_push,
    Array.getElem?_push, Array.getElem?_push]
  grind

theorem modify_push (A : Array Scope) (scope : Scope) (f : Scope → Scope) :
    (A.push scope).modify A.size f = A.push (f scope) := by
  simpa using modify_push_append A #[] scope f

theorem run_places (ids : List NodeId) (b : ScopeBuilder) :
    b.run (ids.map .place) = { b with table.nodes := b.table.nodes.insertMany (ids.map (·, b.current)) } := by
  induction ids generalizing b with
  | nil => rfl
  | cons id ids ih =>
      rw [List.map_cons, List.map_cons, Std.TreeMap.insertMany_cons]
      exact ih (b.step (.place id))

/-- Variables are declared by the scope that was opened last. -/
theorem run_vars (storage : Storage) (vs : List VarDecl) :
    run ⟨⟨A.push scope, nodes, cs, ks⟩, A.size, f⟩ (vs.flatMap (VarDecl.scopeSteps storage)) =
      ⟨⟨A.push { scope with vars := scope.vars ++ vs.map (·.bind storage) },
        nodes.insertMany ((vs.map (·.node.id)).map (·, A.size)), cs, ks⟩, A.size, f⟩ := by
  induction vs generalizing scope nodes with
  | nil => simp [run]
  | cons v vs ih =>
      have hfirst : run ⟨⟨A.push scope, nodes, cs, ks⟩, A.size, f⟩ (v.scopeSteps storage) =
          ⟨⟨A.push { scope with vars := scope.vars ++ [v.bind storage] }, nodes.insert v.node.id A.size, cs, ks⟩,
            A.size, f⟩ := by
        simp only [VarDecl.scopeSteps, run, List.foldl_cons, List.foldl_nil, step, modify_push]
      rw [List.flatMap_cons, run_append, hfirst, ih]
      simp only [List.map_cons, List.append_assoc, List.singleton_append, Std.TreeMap.insertMany_cons]

/-- The nodes of a method below its own. -/
theorem nodeIds_method (m : MethodDecl) :
    nodeIds m.visits = m.node.id :: (m.formals.map (·.node.id) ++ m.locals.map (·.node.id)
      ++ nodeIds (Stmt.visitsAll m.body ++ m.result.visits)) := by
  rw [MethodDecl.visits, nodeIds_cons_of_some rfl, nodeIds_cons_of_none rfl, List.append_assoc (_ ++ _), nodeIds_append,
    nodeIds_append, nodeIds_formals, nodeIds_fields]

/-- A new scope becomes that of a method. -/
theorem run_innerSteps (m : MethodDecl) (className : String) (outer : List ScopeId) :
    run ⟨⟨A.push ⟨outer, some className, [], []⟩, nodes.insert m.node.id A.size, cs, ks⟩, A.size, f⟩ m.innerSteps =
      ⟨⟨A.push (m.scope className outer), nodes.insertMany ((nodeIds m.visits).map (·, A.size)), cs, ks⟩,
        A.size, f⟩ := by
  rw [MethodDecl.innerSteps, run_append, run_append, run_vars, run_vars, run_places, nodeIds_method]
  simp only [List.map_cons, List.map_append, Std.TreeMap.insertMany_cons, Std.TreeMap.insertMany_append]
  rfl

/-- A method is declared by the scope of its class, and gets the next scope. -/
theorem run_method (m : MethodDecl) (className : String) :
    run ⟨⟨A.push scope ++ B, nodes, cs, ks⟩, A.size, f⟩ (m.scopeSteps className) =
      ⟨⟨A.push { scope with methods := scope.methods ++ [m.bind className] }
          ++ B.push (m.scope className (A.size :: scope.outer)),
        nodes.insertMany ((nodeIds m.visits).map (·, A.size + 1 + B.size)), cs, ks⟩, A.size, f⟩ := by
  generalize hA' : A.push { scope with methods := scope.methods ++ [m.bind className] } ++ B = A'
  have hsize : A'.size = A.size + 1 + B.size := by rw [← hA', Array.size_append, Array.size_push]
  have hchain : ScopeTable.chain ⟨A', nodes, cs, ks⟩ A.size = A.size :: scope.outer := by
    rw [chain, ← hA', Array.getElem?_append_left (by rw [Array.size_push]; exact Nat.lt_succ_self _),
      Array.getElem?_push_size]
    rfl
  have hopened : run ⟨⟨A.push scope ++ B, nodes, cs, ks⟩, A.size, f⟩
      [.declareMethod (m.bind className), .enter m.node.id className] =
        ⟨⟨A'.push ⟨A.size :: scope.outer, some className, [], []⟩, nodes.insert m.node.id A'.size, cs, ks⟩,
          A'.size, f⟩ := by
    simp only [run, List.foldl_cons, List.foldl_nil, step, modify_push_append, hA', hchain]
  change run (run _ [.declareMethod (m.bind className), .enter m.node.id className]) (m.innerSteps ++ [.leave]) = _
  rw [hopened, run_append, run_innerSteps, ← hsize, Array.append_push, hA']
  simp only [run, List.foldl_cons, List.foldl_nil, step, parent?, Array.getElem?_push_size]
  rfl

/-- The methods of a class are declared by its scope, and their scopes follow it. -/
theorem run_methods (className : String) (ms : List MethodDecl) :
    run ⟨⟨A.push scope ++ B, nodes, cs, ks⟩, A.size, f⟩ (ms.flatMap (MethodDecl.scopeSteps className)) =
      ⟨⟨A.push { scope with methods := scope.methods ++ ms.map (·.bind className) }
          ++ (B ++ (ms.map (·.scope className (A.size :: scope.outer))).toArray),
        nodes.insertMany ((ms.zipIdx (A.size + 1 + B.size)).flatMap fun (m, i) => (nodeIds m.visits).map (·, i)),
        cs, ks⟩, A.size, f⟩ := by
  induction ms generalizing scope B nodes with
  | nil => simp [run]
  | cons m ms ih =>
      have hscopes : B.push (m.scope className (A.size :: scope.outer))
          ++ (ms.map (·.scope className (A.size :: scope.outer))).toArray =
            B ++ ((m :: ms).map (·.scope className (A.size :: scope.outer))).toArray := by
        simp
      rw [List.flatMap_cons, run_append, run_method, ih, hscopes]
      simp only [List.map_cons, List.append_assoc, List.singleton_append, List.zipIdx_cons, List.flatMap_cons,
        Std.TreeMap.insertMany_append, Array.size_push]
      rfl

/-- A class is added inside the scope of its superclass, or inside the root if that is not there. -/
theorem run_class (t : ScopeTable) (c : ClassDecl) :
    run ⟨t, root, f⟩ c.scopeSteps =
      ⟨t.withClass c (t.chain (t.enclosing c).1) (t.enclosing c).2.1, root, f.or (t.enclosing c).2.2⟩ := by
  have hopened : run ⟨t, root, f⟩ [.classItem c, .enter c.node.id c.name, .register c.name] =
      ⟨⟨t.scopes.push ⟨t.chain (t.enclosing c).1, some c.name, [], []⟩, t.nodes.insert c.node.id t.scopes.size,
        (c.name, t.scopes.size) :: t.classScopes,
        t.classes ++ [(c.name, ⟨.ofClass c (t.enclosing c).2.1, c.node.id⟩)]⟩,
        t.scopes.size, f.or (t.enclosing c).2.2⟩ := rfl
  change run (run _ [.classItem c, .enter c.node.id c.name, .register c.name])
    (c.fields.flatMap (VarDecl.scopeSteps .field) ++ c.methods.flatMap (MethodDecl.scopeSteps c.name) ++ [.home]) = _
  have hpush (A : Array Scope) (scope : Scope) : A.push scope = A.push scope ++ #[] := Array.append_empty.symm
  rw [hopened, run_append, run_append, run_vars, hpush, run_methods]
  simp only [run, List.foldl_cons, List.foldl_nil, step, withClass, ClassDecl.nodeScopes, List.map_cons,
    List.cons_append, Std.TreeMap.insertMany_cons, Std.TreeMap.insertMany_append]
  rw [Array.empty_append]
  rfl

theorem run_main (m : MainClass) : run start m.scopeSteps = ⟨ofMain m, root, none⟩ := by
  have hopened : run start [.mainItem m, .enter m.node.id m.name] =
      ⟨⟨#[⟨[], none, [], []⟩, ⟨[root], some m.name, [], []⟩], (∅ : Std.TreeMap NodeId ScopeId).insert m.node.id 1, [],
        [(m.name, ⟨.empty m.name, m.node.id⟩)]⟩, 1, none⟩ := rfl
  change run (run _ [.mainItem m, .enter m.node.id m.name]) ((nodeIds m.body.visits).map .place ++ [.home]) = _
  rw [hopened, run_append, run_places, ofMain, MainClass.visits, nodeIds_cons_of_some rfl, List.map_cons,
    Std.TreeMap.ofList_cons]
  rfl

end

section
variable {t : ScopeTable} {c : ClassDecl} {e : Located HierarchyFault}

theorem surroundings_eq (hroot : t.chain root = [root]) (c : ClassDecl) :
    t.surroundings c = match (t.enclosing c).2.2 with
      | none => .ok (t.chain (t.enclosing c).1, (t.enclosing c).2.1)
      | some e => .error e := by
  cases hsuper : c.superName with
  | none => simp only [surroundings, enclosing, hsuper, hroot]
  | some superName =>
      cases hscope : t.classScope? superName <;> cases hlayout : t.layout? superName <;>
        simp only [surroundings, enclosing, hsuper, hscope, hlayout]

/-- The first fault stays. -/
theorem fault_run {b : ScopeBuilder} (h : b.fault = some e) (steps : List ScopeStep) : (b.run steps).fault = some e := by
  induction steps generalizing b with
  | nil => exact h
  | cons next steps ih =>
      refine ih ?_
      cases next with
      | classItem c =>
          rw [step, h]
          rfl
      | _ => exact h

/-- Construction gives the scopes of the classes, or the first fault. -/
theorem outcome_run_classes (classes : List ClassDecl) : ∀ {t : ScopeTable}, Sound ⟨t, root, none⟩ →
    (run ⟨t, root, none⟩ (classes.flatMap ClassDecl.scopeSteps)).outcome = classes.foldlM addClass t := by
  induction classes with
  | nil => exact fun _ => rfl
  | cons c classes ih =>
      intro t h
      have hnext := h.run c.scopeSteps
      rw [run_class] at hnext
      rw [List.flatMap_cons, run_append, run_class, List.foldlM_cons, addClass, surroundings_eq h.rooted.chain_root]
      cases hfault : (t.enclosing c).2.2 with
      | none =>
          rw [hfault] at hnext
          exact ih hnext
      | some e =>
          rw [outcome, fault_run rfl]
          rfl

theorem size_run_classes (classes : List ClassDecl) : ∀ (t : ScopeTable) (f : Option (Located HierarchyFault)),
    (run ⟨t, root, f⟩ (classes.flatMap ClassDecl.scopeSteps)).table.scopes.size =
      t.scopes.size + classes.length + (classes.flatMap (·.methods)).length := by
  induction classes with
  | nil => exact fun _ _ => rfl
  | cons c classes ih =>
      intro t f
      have hsize : ∀ outer inherited,
          (t.withClass c outer inherited).scopes.size = t.scopes.size + 1 + c.methods.length := by
        intro outer inherited
        simp [withClass]
        omega
      rw [List.flatMap_cons, run_append, run_class, ih, hsize, List.flatMap_cons, List.length_append, List.length_cons]
      omega

/-- The classes of which the scopes and the layouts are known. -/
structure Knows (t : ScopeTable) (names : List String) : Prop where
  scope : ∀ name, (t.classScope? name).isSome ↔ name ∈ names
  layout : ∀ name ∈ names, (t.layout? name).isSome

theorem knows_ofMain (m : MainClass) : Knows (ofMain m) [] where
  scope name := by simp [classScope?, ofMain]
  layout _ h := absurd h List.not_mem_nil

theorem Knows.withClass {names : List String} (h : Knows t names) (c : ClassDecl) (outer : List ScopeId)
    (inherited : Option Layout) : Knows (t.withClass c outer inherited) (names ++ [c.name]) where
  scope name := by
    rw [classScope?, ScopeTable.withClass, Table.lookup_cons, List.mem_append, List.mem_singleton]
    by_cases hname : name = c.name
    · rw [if_pos hname]
      exact iff_of_true rfl (.inr hname)
    · rw [if_neg hname]
      exact (h.scope name).trans (or_iff_left hname).symm
  layout name hname := by
    have hlookup : (t.withClass c outer inherited).layout? name =
        (t.layout? name).or (if name = c.name then some (Layout.ofClass c inherited) else none) := by
      simp only [layout?, ownClass?, ScopeTable.withClass, List.lookup_append, Table.lookup_cons, if_true]
      cases t.classes.lookup name <;> by_cases hc : name = c.name <;> simp [hc]
    rw [hlookup]
    rcases List.mem_append.mp hname with hold | hnew
    · rw [Option.isSome_or, h.layout name hold, Bool.true_or]
    · rw [if_pos (List.mem_singleton.mp hnew), Option.isSome_or, Bool.or_eq_true]
      exact .inr rfl

theorem Knows.fault_eq_none_iff {names : List String} (h : Knows t names) (c : ClassDecl) :
    (t.enclosing c).2.2 = none ↔ ∀ superName, c.superName = some superName → superName ∈ names := by
  rw [enclosing]
  cases c.superName with
  | none => simp
  | some superName =>
      have hscope := h.scope superName
      have hlayout := h.layout superName
      cases hs : t.classScope? superName <;> cases hl : t.layout? superName <;> simp_all

/-- There is no fault exactly if every superclass was added before. -/
theorem fault_run_classes (classes : List ClassDecl) : ∀ {t : ScopeTable} {before : List ClassDecl},
    Knows t (before.map (·.name)) →
      ((run ⟨t, root, none⟩ (classes.flatMap ClassDecl.scopeSteps)).fault = none ↔
        ∀ front c back superName, classes = front ++ c :: back → c.superName = some superName →
          ∃ d ∈ before ++ front, d.name = superName) := by
  induction classes with
  | nil =>
      intro t before _
      exact iff_of_true rfl fun front c back _ h => absurd h (by simp)
  | cons c classes ih =>
      intro t before h
      have hfirst : (t.enclosing c).2.2 = none ↔
          ∀ superName, c.superName = some superName → ∃ d ∈ before, d.name = superName := by
        rw [h.fault_eq_none_iff]
        simp only [List.mem_map]
      have hnext := h.withClass c (t.chain (t.enclosing c).1) (t.enclosing c).2.1
      rw [← List.map_singleton, ← List.map_append] at hnext
      rw [List.flatMap_cons, run_append, run_class]
      cases hfault : (t.enclosing c).2.2 with
      | none =>
          refine (ih hnext).trans ⟨fun hrest front d back superName heq => ?_, fun hall front d back superName heq => ?_⟩
          · cases front with
            | nil =>
                cases heq
                rw [List.append_nil]
                exact hfirst.mp hfault superName
            | cons e front =>
                cases heq
                rw [List.append_cons]
                exact hrest front d back superName rfl
          · subst heq
            rw [← List.append_cons]
            exact hall (c :: front) d back superName rfl
      | some e =>
          refine iff_of_false (by rw [fault_run rfl]; exact Option.some_ne_none e) fun hall => ?_
          have hnone := hfirst.mpr fun superName => by
            have hsuper := hall [] c classes superName rfl
            rwa [List.append_nil] at hsuper
          cases hnone.symm.trans hfault

end

end ScopeBuilder

section
variable (p : Program)

open ScopeBuilder

theorem run_scopeSteps :
    start.run p.scopeSteps = run ⟨ofMain p.main, root, none⟩ (p.classes.flatMap ClassDecl.scopeSteps) := by
  rw [Program.scopeSteps, run_append, run_main]

theorem outcome_scopeSteps : (start.run p.scopeSteps).outcome = ofProgram p := by
  have hmain := sound_start.run p.main.scopeSteps
  rw [run_main] at hmain
  rw [run_scopeSteps, outcome_run_classes p.classes hmain, ofProgram]

theorem size_scopeSteps : (start.run p.scopeSteps).table.scopes.size =
    2 + p.classes.length + (p.classes.flatMap (·.methods)).length := by
  rw [run_scopeSteps, size_run_classes]
  rfl

theorem exists_ofProgram_iff_fault : (∃ t, ofProgram p = .ok t) ↔ (start.run p.scopeSteps).fault = none := by
  rw [← outcome_scopeSteps, outcome]
  cases (start.run p.scopeSteps).fault with
  | none => exact iff_of_true ⟨_, rfl⟩ rfl
  | some e => exact iff_of_false (by rintro ⟨t, ⟨⟩⟩) (Option.some_ne_none e)

end

/-- At every moment of the construction of scopes each scope but the root has a parent with a smaller number, so that
lookups end, and they end at the nearest declaration. The construction gives the scopes of the program or its first
fault; it opens a scope for the root, the main class, each class and each method; and it succeeds exactly if every
superclass is declared before its subclass. -/
theorem scopes_searchable_while_built (p : Program) :
    (∀ n, (ScopeBuilder.start.run (p.scopeSteps.take n)).table.Searchable) ∧
    (ScopeBuilder.start.run p.scopeSteps).outcome = ofProgram p ∧
    (ScopeBuilder.start.run p.scopeSteps).table.scopes.size =
      2 + p.classes.length + (p.classes.flatMap (·.methods)).length ∧
    ((∃ t, ofProgram p = .ok t) ↔ ∀ before c after superName, p.classes = before ++ c :: after →
      c.superName = some superName → ∃ d ∈ before, d.name = superName) := by
  refine ⟨fun n => ?_, outcome_scopeSteps p, size_scopeSteps p, ?_⟩
  · exact (ScopeBuilder.sound_start.run _).rooted.searchable
  · have hknows : ScopeBuilder.Knows (ofMain p.main) (([] : List ClassDecl).map (·.name)) :=
      ScopeBuilder.knows_ofMain p.main
    rw [exists_ofProgram_iff_fault, run_scopeSteps, ScopeBuilder.fault_run_classes p.classes hknows]
    simp only [List.nil_append]

end Demitasse
