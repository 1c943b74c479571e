import Demitasse.Proofs.Evaluation
import Demitasse.Proofs.Inheritance
import Demitasse.Proofs.Reading
import Demitasse.Proofs.Resolution
import Demitasse.Proofs.Typing

/-!
What names mean. In a method a name means the first parameter of that name, or else the first local variable, or
else the first field of the nearest class that declares one, from the class of the method upwards. The main method
can name nothing. Which scope a node lies in does not matter beyond that: a name means the same at all statements and
expressions of a method.
-/

namespace Demitasse

section
variable {α : Type} {key : α → String} {name : String} {l : List α} {x : α}

/-- Of the items of a list, `x` is the first one of the given name. -/
def FirstNamed (key : α → String) (name : String) (l : List α) (x : α) : Prop :=
  key x = name ∧ ∃ before after, l = before ++ x :: after ∧ name ∉ before.map key

theorem FirstNamed.mem (h : FirstNamed key name l x) : x ∈ l := by
  obtain ⟨_, before, after, rfl, _⟩ := h
  exact List.mem_append_right _ List.mem_cons_self

theorem find?_eq_some_iff_firstNamed : l.find? (fun x => key x = name) = some x ↔ FirstNamed key name l x := by
  rw [List.find?_eq_some_iff_append, FirstNamed]
  simp

theorem find?_eq_none_iff_not_mem : l.find? (fun x => key x = name) = none ↔ name ∉ l.map key := by
  simp

/-- From `c` upwards, `d` is the nearest class that has an item of the given name, and `x` is its first one. -/
def Forest.Nearest (F : Forest) (items : ClassDecl → List α) (key : α → String) (name : String) (c d : ClassDecl)
    (x : α) : Prop :=
  ∃ nearer further, F.Ascent c (nearer ++ d :: further) ∧ (∀ k ∈ nearer, name ∉ (items k).map key) ∧
    FirstNamed key name (items d) x

end

/-- Where statements stand: in the main method or in a method of a class. -/
inductive Routine where
  | main
  | method (c : ClassDecl) (m : MethodDecl)

/-- The class whose instances `this` can mean. -/
def Routine.className? : Routine → Option String
  | .main => none
  | .method c _ => some c.name

/-- The statements that a statement is made of. -/
def Stmt.children : Stmt → List Stmt
  | .block _ body => body
  | .ifElse _ _ thenBranch elseBranch => [thenBranch, elseBranch]
  | .loop _ _ body => [body]
  | .print .. | .assign .. | .assignElement .. => []

/-- A statement is another one or stands somewhere in it. -/
inductive Stmt.Inside (s : Stmt) : Stmt → Prop
  | self : Inside s s
  | child {t c : Stmt} (hc : c ∈ t.children) (h : Inside s c) : Inside s t

namespace Program

/-- The routines of a program. -/
def Has (p : Program) : Routine → Prop
  | .main => True
  | .method c m => c ∈ p.classes ∧ m ∈ c.methods

/-- The statements of a routine, without those inside of others. -/
def stmtsOf (p : Program) : Routine → List Stmt
  | .main => [p.main.body]
  | .method _ m => m.body

/-- The expressions of a routine, without those inside of other expressions. -/
def exprsOf (p : Program) : Routine → List Expr
  | .main => p.main.body.exprs
  | .method _ m => m.exprs

/-- The nodes of a routine. -/
def nodesIn (p : Program) : Routine → List NodeId
  | .main => nodeIds p.main.visits
  | .method _ m => nodeIds m.visits

/-- A node is that of a statement or an expression that stands somewhere in a routine. -/
inductive Encloses (p : Program) (routine : Routine) : Node → Prop
  | stmt {t s : Stmt} (ht : t ∈ p.stmtsOf routine) (hs : s.Inside t) : p.Encloses routine s.node
  | expr {d e : Expr} (hd : d ∈ p.exprsOf routine) (he : e.Inside d) : p.Encloses routine e.node

/-- What a name is declared as for a routine. -/
inductive Declares (p : Program) (name : String) : Routine → VarBinding → Prop
  | ofFormal {c : ClassDecl} {m : MethodDecl} {v : VarDecl} :
      FirstNamed (·.name) name m.formals v → p.Declares name (.method c m) ⟨v.ty, .param, v.node.id⟩
  | ofLocal {c : ClassDecl} {m : MethodDecl} {v : VarDecl} :
      name ∉ m.formals.map (·.name) → FirstNamed (·.name) name m.locals v →
      p.Declares name (.method c m) ⟨v.ty, .local, v.node.id⟩
  | ofField {c d : ClassDecl} {m : MethodDecl} {f : VarDecl} :
      name ∉ m.formals.map (·.name) → name ∉ m.locals.map (·.name) →
      p.forest.Nearest (·.fields) (·.name) name c d f → p.Declares name (.method c m) ⟨f.ty, .field, f.node.id⟩

end Program

theorem Expr.id_mem_nodeIds (e : Expr) : e.node.id ∈ nodeIds e.visits := by
  cases e <;> simp [Expr.visits, nodeIds, Visit.node?, Expr.node]

theorem Stmt.id_mem_nodeIds (s : Stmt) : s.node.id ∈ nodeIds s.visits := by
  cases s <;> simp [Stmt.visits, nodeIds, Visit.node?, Stmt.node]

theorem Stmt.visits_subset_visitsAll {ss : List Stmt} : ∀ s ∈ ss, s.visits ⊆ Stmt.visitsAll ss := by
  induction ss with
  | nil => exact List.forall_mem_nil _
  | cons first rest ih =>
      rw [Stmt.visitsAll, List.forall_mem_cons]
      exact ⟨List.subset_append_left _ _, fun s hs => List.subset_append_of_subset_right _ (ih s hs)⟩

theorem Stmt.visits_subset_of_child {t : Stmt} : ∀ c ∈ t.children, c.visits ⊆ t.visits := by
  cases t with
  | block node body =>
      rw [Stmt.visits]
      exact fun c hc => List.subset_cons_of_subset _ (Stmt.visits_subset_visitsAll c hc)
  | ifElse node cond thenBranch elseBranch =>
      rw [Stmt.visits, List.append_assoc, Stmt.children, List.forall_mem_cons, List.forall_mem_singleton]
      refine ⟨?_, ?_⟩
      · exact List.subset_cons_of_subset _
          (List.subset_append_of_subset_right _ (List.subset_append_left _ _))
      · exact List.subset_cons_of_subset _
          (List.subset_append_of_subset_right _ (List.subset_append_right _ _))
  | loop node cond body =>
      rw [Stmt.visits, Stmt.children, List.forall_mem_singleton]
      exact List.subset_cons_of_subset _ (List.subset_append_right _ _)
  | _ => exact List.forall_mem_nil _

theorem Stmt.Inside.visits_subset {s t : Stmt} (h : s.Inside t) : s.visits ⊆ t.visits := by
  induction h with
  | self => exact List.Subset.refl _
  | child hc _ ih => exact List.Subset.trans ih (Stmt.visits_subset_of_child _ hc)

namespace Program

variable {p : Program} {routine : Routine}

theorem nodeIds_subset_of_stmt {t s : Stmt} (ht : t ∈ p.stmtsOf routine) (hs : s.Inside t) :
    nodeIds s.visits ⊆ p.nodesIn routine := by
  refine List.Subset.trans (nodeIds_subset hs.visits_subset) ?_
  cases routine with
  | main =>
      obtain rfl := List.mem_singleton.mp ht
      exact nodeIds_subset (List.subset_cons_of_subset _ (List.Subset.refl _))
  | method c m =>
      refine nodeIds_subset (List.Subset.trans (Stmt.visits_subset_visitsAll t ht) ?_)
      rw [MethodDecl.visits]
      exact fun v hv => List.mem_cons_of_mem _ (List.mem_cons_of_mem _
        (List.mem_append_left _ (List.mem_append_right _ hv)))

/-- The nodes of an expression that stands somewhere in a routine are nodes of the routine. -/
theorem nodeIds_subset_of_expr {d e : Expr} (hd : d ∈ p.exprsOf routine) (he : e.Inside d) :
    nodeIds e.visits ⊆ p.nodesIn routine := by
  cases routine with
  | main =>
      apply nodeIds_subset
      refine List.Subset.trans he.visits_subset ?_
      exact List.subset_cons_of_subset _ (Stmt.visits_subset_of_mem_exprs p.main.body d hd)
  | method c m => exact MethodDecl.nodeIds_of_inside hd he

theorem Encloses.mem_nodesIn {node : Node} (h : p.Encloses routine node) : node.id ∈ p.nodesIn routine := by
  cases h with
  | stmt ht hs => exact nodeIds_subset_of_stmt ht hs (Stmt.id_mem_nodeIds _)
  | expr hd he => exact nodeIds_subset_of_expr hd he (Expr.id_mem_nodeIds _)

end Program

theorem lookup_bind (vs : List VarDecl) (storage : Storage) (name : String) :
    (vs.map (·.bind storage)).lookup name =
      (vs.find? fun v => v.name = name).map fun v => ⟨v.ty, storage, v.node.id⟩ :=
  ScopeTable.lookup_map _ _ _ _

namespace Analysis

variable {a : Analysis} {p : Program}

theorem Describes.forest_eq (h : a.Describes p) : p.forest = a.forest :=
  h.forest.symm

theorem Describes.ascent_iff (h : a.Describes p) {c : ClassDecl} {L : List ClassDecl} :
    p.forest.Ascent c L ↔ c ∈ p.classes ∧ L = a.forest.lineage c.name := by
  rw [← h.forest_eq]
  exact Forest.ascent_iff h.ordered

section
variable {α β : Type} {key : α → String} {name : String} {items : ClassDecl → List α} {value : ClassDecl → α → β}
  {c : ClassDecl}

/-- The item that a lineage is asked for is the first one of the nearest class. -/
theorem Describes.findSome?_lineage_eq_some_iff (h : a.Describes p) (hc : c ∈ p.classes) {b : β} :
    (a.forest.lineage c.name).findSome? (fun d => ((items d).find? fun x => key x = name).map (value d)) = some b ↔
      ∃ d x, p.forest.Nearest items key name c d x ∧ value d x = b := by
  simp only [List.findSome?_eq_some_iff, Option.map_eq_some_iff, Option.map_eq_none_iff,
    find?_eq_some_iff_firstNamed, find?_eq_none_iff_not_mem]
  constructor
  · rintro ⟨nearer, d, further, hlineage, ⟨x, hx, hb⟩, hnearer⟩
    exact ⟨d, x, ⟨nearer, further, h.ascent_iff.mpr ⟨hc, hlineage.symm⟩, hnearer, hx⟩, hb⟩
  · rintro ⟨d, x, ⟨nearer, further, hascent, hnearer, hx⟩, hb⟩
    exact ⟨nearer, d, further, (h.ascent_iff.mp hascent).2.symm, ⟨x, hx, hb⟩, hnearer⟩

theorem Describes.findSome?_lineage_eq_none_iff (h : a.Describes p) (hc : c ∈ p.classes) :
    (a.forest.lineage c.name).findSome? (fun d => ((items d).find? fun x => key x = name).map (value d)) = none ↔
      ∃ L, p.forest.Ascent c L ∧ ∀ d ∈ L, name ∉ (items d).map key := by
  simp only [List.findSome?_eq_none_iff, Option.map_eq_none_iff, find?_eq_none_iff_not_mem]
  constructor
  · exact fun hnone => ⟨_, h.ascent_iff.mpr ⟨hc, rfl⟩, hnone⟩
  · rintro ⟨L, hascent, hnone⟩
    rwa [(h.ascent_iff.mp hascent).2] at hnone

end

/-- At the nodes of a routine a name means what it is declared as for the routine. -/
theorem Describes.resolve?_eq_some_iff (h : a.Describes p) (hids : (nodeIds p.visits).Nodup) {routine : Routine}
    (hroutine : p.Has routine) {id : NodeId} (hid : id ∈ p.nodesIn routine) {name : String} {b : VarBinding} :
    a.scopes.resolve? id name = some b ↔ p.Declares name routine b := by
  cases routine with
  | main =>
      rw [h.resolve?_main hids hid]
      constructor
      · intro hb
        cases hb
      · intro hb
        cases hb
  | method c m =>
      rw [h.resolve? hids hroutine.1 hroutine.2 hid, List.lookup_append]
      simp only [lookup_bind, Option.or_eq_some_iff, Option.or_eq_none_iff, Option.map_eq_some_iff,
        Option.map_eq_none_iff, find?_eq_some_iff_firstNamed, find?_eq_none_iff_not_mem,
        h.findSome?_lineage_eq_some_iff hroutine.1]
      constructor
      · rintro ((⟨v, hv, rfl⟩ | ⟨hformal, v, hv, rfl⟩) | ⟨⟨hformal, hlocal⟩, d, f, hf, rfl⟩)
        · exact .ofFormal hv
        · exact .ofLocal hformal hv
        · exact .ofField hformal hlocal hf
      · intro hb
        cases hb with
        | ofFormal hv => exact .inl (.inl ⟨_, hv, rfl⟩)
        | ofLocal hformal hv => exact .inl (.inr ⟨hformal, _, hv, rfl⟩)
        | ofField hformal hlocal hf => exact .inr ⟨⟨hformal, hlocal⟩, _, _, hf, rfl⟩

/-- A name means nothing in a method if neither the method nor a class from its own upwards declares it. -/
theorem Describes.resolve?_eq_none_iff (h : a.Describes p) (hids : (nodeIds p.visits).Nodup) {c : ClassDecl}
    {m : MethodDecl} (hroutine : p.Has (.method c m)) {id : NodeId} (hid : id ∈ p.nodesIn (.method c m))
    {name : String} :
    a.scopes.resolve? id name = none ↔ name ∉ m.formals.map (·.name) ∧ name ∉ m.locals.map (·.name) ∧
      ∃ L, p.forest.Ascent c L ∧ ∀ d ∈ L, name ∉ d.fields.map (·.name) := by
  rw [h.resolve? hids hroutine.1 hroutine.2 hid, List.lookup_append]
  simp only [lookup_bind, Option.or_eq_none_iff, Option.map_eq_none_iff, find?_eq_none_iff_not_mem,
    h.findSome?_lineage_eq_none_iff hroutine.1, and_assoc]

end Analysis

/-- At every statement and expression of a method a name means the first parameter of that name, or else the first
local variable, or else the first field of the nearest class that declares one, and it means nothing where there is
none of these. In the main method it means nothing. -/
theorem names_mean_nearest_declaration {p : Program} {a : Analysis} (ha : Analysis.ofProgram p = .ok a) :
    (∀ source, parse source = .ok p → (nodeIds p.visits).Nodup) ∧
    ((nodeIds p.visits).Nodup →
      (∀ c ∈ p.classes, ∀ m ∈ c.methods, ∀ node, p.Encloses (.method c m) node → ∀ name,
        (∀ b, a.scopes.resolve? node.id name = some b ↔ p.Declares name (.method c m) b) ∧
        (a.scopes.resolve? node.id name = none ↔ name ∉ m.formals.map (·.name) ∧ name ∉ m.locals.map (·.name) ∧
          ∃ L, p.forest.Ascent c L ∧ ∀ d ∈ L, name ∉ d.fields.map (·.name))) ∧
      ∀ node, p.Encloses .main node → ∀ name, a.scopes.resolve? node.id name = none) := by
  have h := Analysis.describes ha
  refine ⟨fun _ => nodeIds_nodup_of_parse, fun hids => ⟨?_, ?_⟩⟩
  · intro c hc m hm node hnode name
    have hhas : p.Has (.method c m) := ⟨hc, hm⟩
    exact ⟨fun b => h.resolve?_eq_some_iff hids hhas hnode.mem_nodesIn,
      h.resolve?_eq_none_iff hids hhas hnode.mem_nodesIn⟩
  · intro node hnode name
    exact h.resolve?_main hids hnode.mem_nodesIn name

/-- The method of `Moon` has two parameters and a local variable `y`, and `Moon` declares the field `x` of `Sun`
once more. -/
def eclipse : Program where
  main := ⟨node 2, "Main", "args", .print (node 1) (.int (node 0) 1)⟩
  classes := [sun, moon]
  span := .origin
where
  /-- a node by its identity -/
  node (id : NodeId) : Node := ⟨id, .origin⟩
  /-- the class above -/
  sun : ClassDecl := ⟨node 5, "Sun", none, [⟨node 3, .int, "x"⟩, ⟨node 4, .int, "z"⟩], []⟩
  /-- the class below -/
  moon : ClassDecl := ⟨node 15, "Moon", some "Sun", [⟨node 6, .boolean, "x"⟩], [hide]⟩
  /-- the method -/
  hide : MethodDecl :=
    ⟨node 14, .int, "hide", [⟨node 7, .int, "y"⟩, ⟨node 8, .boolean, "y"⟩],
      [⟨node 9, .boolean, "y"⟩, ⟨node 10, .int, "w"⟩],
      [.assign (node 12) "w" (.int (node 11) 0)], .var (node 13) "w"⟩

theorem names_mean_nearest_declaration_eclipse : ∃ a, Analysis.ofProgram eclipse = .ok a ∧
    (nodeIds eclipse.visits).Nodup ∧ a.scopes.resolve? 12 "y" = some ⟨.int, .param, 7⟩ ∧
    a.scopes.resolve? 11 "w" = some ⟨.int, .local, 10⟩ ∧ a.scopes.resolve? 13 "x" = some ⟨.boolean, .field, 6⟩ ∧
    a.scopes.resolve? 12 "z" = some ⟨.int, .field, 4⟩ ∧ a.scopes.resolve? 12 "args" = none ∧
    a.scopes.resolve? 0 "x" = none := by
  have hF : Forest.ofProgram eclipse = .ok ⟨eclipse.classes⟩ := rfl
  obtain ⟨a, ha, _⟩ := Analysis.ofProgram_of_forest hF
  have hids : (nodeIds eclipse.visits).Nodup := by decide
  have hup : eclipse.forest.Ascent eclipse.moon [eclipse.moon, eclipse.sun] :=
    .step (by simp [eclipse, Program.forest]) rfl (.root (by simp [eclipse, Program.forest]) rfl)
  obtain ⟨hmethods, hmain⟩ := (names_mean_nearest_declaration ha).2 hids
  have hmoon := hmethods eclipse.moon (by simp [eclipse]) eclipse.hide (by simp [eclipse.moon])
  have hassign : eclipse.Encloses (.method eclipse.moon eclipse.hide) (eclipse.node 12) :=
    .stmt (s := .assign _ _ _) List.mem_cons_self .self
  have hzero : eclipse.Encloses (.method eclipse.moon eclipse.hide) (eclipse.node 11) :=
    .expr (e := .int _ _) (List.mem_cons_of_mem _ List.mem_cons_self) .self
  have hresult : eclipse.Encloses (.method eclipse.moon eclipse.hide) (eclipse.node 13) :=
    .expr (e := .var _ _) List.mem_cons_self .self
  have hy : FirstNamed (·.name) "y" eclipse.hide.formals ⟨eclipse.node 7, .int, "y"⟩ :=
    ⟨rfl, [], _, rfl, by decide⟩
  have hw : FirstNamed (·.name) "w" eclipse.hide.locals ⟨eclipse.node 10, .int, "w"⟩ :=
    ⟨rfl, [_], _, rfl, by decide⟩
  have hx : eclipse.forest.Nearest (·.fields) (·.name) "x" eclipse.moon eclipse.moon ⟨eclipse.node 6, .boolean, "x"⟩ :=
    ⟨[], _, hup, by simp, rfl, [], _, rfl, by decide⟩
  have hz : eclipse.forest.Nearest (·.fields) (·.name) "z" eclipse.moon eclipse.sun ⟨eclipse.node 4, .int, "z"⟩ :=
    ⟨[_], _, hup, by decide, rfl, [_], _, rfl, by decide⟩
  refine ⟨a, ha, hids, ?_, ?_, ?_, ?_, ?_, ?_⟩
  · exact ((hmoon _ hassign "y").1 _).mpr (.ofFormal hy)
  · exact ((hmoon _ hzero "w").1 _).mpr (.ofLocal (by decide) hw)
  · exact ((hmoon _ hresult "x").1 _).mpr (.ofField (by decide) (by decide) hx)
  · exact ((hmoon _ hassign "z").1 _).mpr (.ofField (by decide) (by decide) hz)
  · exact (hmoon _ hassign "args").2.mpr ⟨by decide, by decide, _, hup, by decide⟩
  · exact hmain (eclipse.node 0) (.expr (e := .int _ _) List.mem_cons_self .self) "x"

end Demitasse
