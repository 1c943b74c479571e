import Demitasse.Proofs.Blame
import Demitasse.Proofs.CarryOver
import Demitasse.Proofs.Continuation
import Demitasse.Proofs.Variables

/-! Programs with more classes. New classes stand behind the old ones, so they are in no lineage of an old class, and
all that the old classes and the main method look up stays what it was. The old part of a longer program passes all
checks and has the same code, and only the new classes can be wrong. -/

namespace Demitasse

mutual

theorem Expr.nodeIds_withoutSpan : ∀ e : Expr, nodeIds (e.mapNodes .withoutSpan).visits = nodeIds e.visits
  | .binary node op left right => by
      rw [mapNodes, visits, visits, nodeIds_cons_of_some rfl, nodeIds_cons_of_some rfl, nodeIds_append, nodeIds_append,
        left.nodeIds_withoutSpan, right.nodeIds_withoutSpan]
      rfl
  | .element node array index => by
      rw [mapNodes, visits, visits, nodeIds_cons_of_some rfl, nodeIds_cons_of_some rfl, nodeIds_append, nodeIds_append,
        array.nodeIds_withoutSpan, index.nodeIds_withoutSpan]
      rfl
  | .length node array => by
      rw [mapNodes, visits, visits, nodeIds_cons_of_some rfl, nodeIds_cons_of_some rfl, array.nodeIds_withoutSpan]
      rfl
  | .call node owner method args => by
      rw [mapNodes, visits, visits, nodeIds_cons_of_some rfl, nodeIds_cons_of_some rfl, nodeIds_append, nodeIds_append,
        owner.nodeIds_withoutSpan, Expr.nodeIdsAll_withoutSpan args]
      rfl
  | .newArray node size => by
      rw [mapNodes, visits, visits, nodeIds_cons_of_some rfl, nodeIds_cons_of_some rfl, size.nodeIds_withoutSpan]
      rfl
  | .not node operand => by
      rw [mapNodes, visits, visits, nodeIds_cons_of_some rfl, nodeIds_cons_of_some rfl, operand.nodeIds_withoutSpan]
      rfl
  | .int _ _ | .bool _ _ | .var _ _ | .this _ | .newObject _ _ => rfl

theorem Expr.nodeIdsAll_withoutSpan : ∀ es : List Expr,
    nodeIds (Expr.visitsAll (Expr.mapNodesAll .withoutSpan es)) = nodeIds (Expr.visitsAll es)
  | [] => rfl
  | e :: rest => by
      rw [mapNodesAll, visitsAll, visitsAll, nodeIds_append, nodeIds_append, e.nodeIds_withoutSpan,
        Expr.nodeIdsAll_withoutSpan rest]

end

mutual

theorem Stmt.nodeIds_withoutSpan : ∀ s : Stmt, nodeIds (s.mapNodes .withoutSpan).visits = nodeIds s.visits
  | .block node body => by
      rw [mapNodes, visits, visits, nodeIds_cons_of_some rfl, nodeIds_cons_of_some rfl,
        Stmt.nodeIdsAll_withoutSpan body]
      rfl
  | .ifElse node cond thenBranch elseBranch => by
      rw [mapNodes, visits, visits, nodeIds_cons_of_some rfl, nodeIds_cons_of_some rfl, nodeIds_append, nodeIds_append,
        nodeIds_append, nodeIds_append, cond.nodeIds_withoutSpan, thenBranch.nodeIds_withoutSpan,
        elseBranch.nodeIds_withoutSpan]
      rfl
  | .loop node cond body => by
      rw [mapNodes, visits, visits, nodeIds_cons_of_some rfl, nodeIds_cons_of_some rfl, nodeIds_append, nodeIds_append,
        cond.nodeIds_withoutSpan, body.nodeIds_withoutSpan]
      rfl
  | .print node arg => by
      rw [mapNodes, visits, visits, nodeIds_cons_of_some rfl, nodeIds_cons_of_some rfl, arg.nodeIds_withoutSpan]
      rfl
  | .assign node target value => by
      rw [mapNodes, visits, visits, nodeIds_cons_of_some rfl, nodeIds_cons_of_some rfl, value.nodeIds_withoutSpan]
      rfl
  | .assignElement node target index value => by
      rw [mapNodes, visits, visits, nodeIds_cons_of_some rfl, nodeIds_cons_of_some rfl, nodeIds_append, nodeIds_append,
        index.nodeIds_withoutSpan, value.nodeIds_withoutSpan]
      rfl

theorem Stmt.nodeIdsAll_withoutSpan : ∀ ss : List Stmt,
    nodeIds (Stmt.visitsAll (Stmt.mapNodesAll .withoutSpan ss)) = nodeIds (Stmt.visitsAll ss)
  | [] => rfl
  | s :: rest => by
      rw [mapNodesAll, visitsAll, visitsAll, nodeIds_append, nodeIds_append, s.nodeIds_withoutSpan,
        Stmt.nodeIdsAll_withoutSpan rest]

end

theorem MethodDecl.nodeIds_withoutSpan (m : MethodDecl) :
    nodeIds (m.mapNodes .withoutSpan).visits = nodeIds m.visits := by
  rw [mapNodes, visits, visits, nodeIds_cons_of_some rfl, nodeIds_cons_of_none rfl, nodeIds_cons_of_some rfl,
    nodeIds_cons_of_none rfl]
  simp only [nodeIds_append, nodeIds_formals, ScopeTable.nodeIds_fields, List.map_map, Stmt.nodeIdsAll_withoutSpan,
    Expr.nodeIds_withoutSpan]
  rfl

theorem MainClass.nodeIds_withoutSpan (m : MainClass) :
    nodeIds (m.mapNodes .withoutSpan).visits = nodeIds m.visits := by
  rw [mapNodes, visits, visits, nodeIds_cons_of_some rfl, nodeIds_cons_of_some rfl, Stmt.nodeIds_withoutSpan]
  rfl

namespace Forest

theorem lineageIn_withoutSpan (rev : List ClassDecl) (C : String) :
    lineageIn (rev.map (ClassDecl.mapNodes .withoutSpan)) C =
      (lineageIn rev C).map (ClassDecl.mapNodes .withoutSpan) := by
  induction rev generalizing C with
  | nil => rfl
  | cons c earlier ih =>
      rw [List.map_cons, lineageIn, lineageIn]
      change (if c.name = C then _ else _) = _
      split
      · rw [List.map_cons, show (c.mapNodes Node.withoutSpan).superName = c.superName from rfl]
        cases c.superName with
        | none => rfl
        | some S => exact congrArg _ (ih S)
      · exact ih C

/-- Later declarations do not change the lineages of earlier ones. -/
theorem lineageIn_append {later earlier : List ClassDecl} (h : Ordered (later ++ earlier)) {C : String}
    (hC : C ∈ earlier.map (·.name)) : lineageIn (later ++ earlier) C = lineageIn earlier C := by
  induction later with
  | nil => rfl
  | cons c later ih =>
      have hmem : C ∈ (later ++ earlier).map (·.name) := by
        rw [List.map_append]
        exact List.mem_append_right _ hC
      rw [List.cons_append] at h ⊢
      rw [lineageIn_cons_of_mem h hmem, ih h.tail]

end Forest

theorem ClassDecl.methodSignature_withoutSpan (c : ClassDecl) (name : String) :
    ((c.mapNodes .withoutSpan).method? name).map (·.signature c.name) =
      (c.method? name).map (·.signature c.name) := by
  rw [method?, method?, mapNodes, List.find?_map, Option.map_map]
  congr 1
  funext m
  exact m.signature_withoutSpan c.name

theorem Layout.ofClass_withoutSpan (c : ClassDecl) (parent : Option Layout) :
    Layout.ofClass (c.mapNodes .withoutSpan) parent = Layout.ofClass c parent := by
  simp only [ofClass, ClassDecl.mapNodes, List.foldl_map, MethodDecl.signature_withoutSpan]
  rfl

theorem Layout.ofLineage_withoutSpan (L : List ClassDecl) :
    Layout.ofLineage (L.map (ClassDecl.mapNodes .withoutSpan)) = Layout.ofLineage L := by
  induction L with
  | nil => rfl
  | cons c ancestors ih => rw [List.map_cons, ofLineage, ofLineage, ih, ofClass_withoutSpan]

theorem VarDecl.bind_withoutSpan {vs vs' : List VarDecl}
    (h : vs'.map (VarDecl.mapNodes .withoutSpan) = vs.map (VarDecl.mapNodes .withoutSpan)) (storage : Storage) :
    vs'.map (·.bind storage) = vs.map (·.bind storage) := by
  have hbind := congrArg (List.map (·.bind storage)) h
  rw [List.map_map, List.map_map] at hbind
  exact hbind

/-! ### Longer programs -/

/-- A program has the main class and the classes `old` of another one, up to spans, and the classes `new` behind
them. -/
structure Program.Extends (p p' : Program) (old new : List ClassDecl) : Prop where
  main : p'.main.mapNodes .withoutSpan = p.main.mapNodes .withoutSpan
  classes : p'.classes = old ++ new
  same : old.map (ClassDecl.mapNodes .withoutSpan) = p.classes.map (ClassDecl.mapNodes .withoutSpan)

namespace Program.Extends

open Forest

variable {p p' : Program} {old new : List ClassDecl} {a a' : Analysis} {C : String} {k : Nat}

theorem mem_classes (h : p.Extends p' old new) {c' : ClassDecl} (hc' : c' ∈ old) : c' ∈ p'.classes := by
  rw [h.classes]
  exact List.mem_append_left _ hc'

/-- An old class is a class of the shorter program, up to spans. -/
theorem exists_class (h : p.Extends p' old new) {c' : ClassDecl} (hc' : c' ∈ old) :
    ∃ c ∈ p.classes, c'.mapNodes .withoutSpan = c.mapNodes .withoutSpan := by
  have hmem := List.mem_map_of_mem hc' (f := ClassDecl.mapNodes .withoutSpan)
  rw [h.same] at hmem
  obtain ⟨c, hc, heq⟩ := List.mem_map.mp hmem
  exact ⟨c, hc, heq.symm⟩

theorem names (h : p.Extends p' old new) : old.map (·.name) = p.classes.map (·.name) := by
  have hnames := congrArg (List.map (·.name)) h.same
  rw [List.map_map, List.map_map] at hnames
  exact hnames

/-- The lineage of an old class is what it was. -/
theorem lineage (h : p.Extends p' old new) (ha : a.Describes p) (ha' : a'.Describes p')
    (hC : C ∈ p.classes.map (·.name)) :
    (a'.forest.lineage C).map (ClassDecl.mapNodes .withoutSpan) =
      (a.forest.lineage C).map (ClassDecl.mapNodes .withoutSpan) := by
  have hordered := ha'.ordered
  rw [h.classes, List.reverse_append] at hordered
  have hmem : C ∈ old.reverse.map (·.name) := by
    rw [List.map_reverse, List.mem_reverse, h.names]
    exact hC
  rw [ha'.lineage, ha.lineage, h.classes, List.reverse_append, lineageIn_append hordered hmem,
    ← lineageIn_withoutSpan, ← lineageIn_withoutSpan, List.map_reverse, List.map_reverse, h.same]

/-- What a lineage says without looking at spans, it says in both programs. -/
theorem said_of_lineage {β : Type} (said : List ClassDecl → β)
    (hsaid : ∀ L, said (L.map (ClassDecl.mapNodes .withoutSpan)) = said L) (h : p.Extends p' old new)
    (ha : a.Describes p) (ha' : a'.Describes p') (hC : C ∈ p.classes.map (·.name)) :
    said (a'.forest.lineage C) = said (a.forest.lineage C) := by
  rw [← hsaid, h.lineage ha ha' hC, hsaid]

theorem mem_names_of_lineage (ha : a.Describes p) (hne : a.forest.lineage C ≠ []) :
    C ∈ p.classes.map (·.name) := by
  rw [ha.lineage, ne_eq, lineageIn_eq_nil, Classical.not_not, List.map_reverse, List.mem_reverse] at hne
  exact hne

theorem lineage_names (h : p.Extends p' old new) (ha : a.Describes p) (ha' : a'.Describes p')
    (hC : C ∈ p.classes.map (·.name)) : (a'.forest.lineage C).map (·.name) = (a.forest.lineage C).map (·.name) := by
  refine h.said_of_lineage (List.map (·.name)) (fun L => ?_) ha ha' hC
  rw [List.map_map]
  rfl

theorem classMethod? (h : p.Extends p' old new) (ha : a.Describes p) (ha' : a'.Describes p')
    (hC : C ∈ p.classes.map (·.name)) (name : String) :
    a'.scopes.classMethod? C name = a.scopes.classMethod? C name := by
  rw [ha'.classMethod?, ha.classMethod?]
  refine h.said_of_lineage _ (fun L => ?_) ha ha' hC
  rw [List.findSome?_map]
  exact congrArg (List.findSome? · L) (funext fun c => c.methodSignature_withoutSpan name)

theorem layout? (h : p.Extends p' old new) (ha : a.Describes p) (ha' : a'.Describes p')
    (hC : C ∈ p.classes.map (·.name)) : a'.catalog.layout? C = a.catalog.layout? C := by
  rw [ha'.layout?, ha.layout?]
  exact h.said_of_lineage _ Layout.ofLineage_withoutSpan ha ha' hC

/-- Old classes inherit the same fields. -/
theorem inheritedFields (h : p.Extends p' old new) (ha : a.Describes p) (ha' : a'.Describes p')
    (hC : C ∈ p.classes.map (·.name)) :
    ((a'.forest.ancestors C).flatMap fun d => d.fields.map (·.name)) =
      (a.forest.ancestors C).flatMap fun d => d.fields.map (·.name) := by
  refine h.said_of_lineage (fun L => L.tail.flatMap fun d => d.fields.map (·.name)) (fun L => ?_) ha ha' hC
  rw [← List.map_tail, List.flatMap_map]
  refine congrArg (List.flatMap · _) (funext fun d => ?_)
  rw [ClassDecl.mapNodes, List.map_map]
  rfl

/-- What is known about classes is still known. -/
theorem within (h : p.Extends p' old new) (ha : a.Describes p) (ha' : a'.Describes p') : a.Within a' where
  isSubclass := by
    intro C D hsub
    rw [isSubclass_iff, ← List.mem_map] at hsub ⊢
    have hne : a.forest.lineage C ≠ [] := List.ne_nil_of_mem (List.mem_map.mp hsub).choose_spec.1
    rw [h.lineage_names ha ha' (mem_names_of_lineage ha hne)]
    exact hsub
  method := by
    intro C name signature hmethod
    rw [← hmethod]
    refine h.classMethod? ha ha' (mem_names_of_lineage ha fun hnil => ?_) name
    rw [ha.classMethod?, hnil] at hmethod
    cases hmethod
  layout := by
    intro C l hl
    rw [← hl]
    refine h.layout? ha ha' (mem_names_of_lineage ha fun hnil => ?_)
    rw [ha.layout?, hnil] at hl
    cases hl

/-- At the nodes of an old method, names mean what they meant. -/
theorem within_method (h : p.Extends p' old new) (ha : a.Describes p) (ha' : a'.Describes p')
    (hids : (nodeIds p.visits).Nodup) (hids' : (nodeIds p'.visits).Nodup) {c c' : ClassDecl} (hc : c ∈ p.classes)
    (hc' : c' ∈ old) (hclass : c'.mapNodes .withoutSpan = c.mapNodes .withoutSpan) {m m' : MethodDecl}
    (hm : m ∈ c.methods) (hm' : m' ∈ c'.methods) (hmethod : m'.mapNodes .withoutSpan = m.mapNodes .withoutSpan) :
    Context.Within (nodeIds m.visits) ⟨a, some c.name⟩ ⟨a', some c.name⟩ := by
  refine ⟨h.within ha ha', rfl, fun id hid name => ?_⟩
  have hid' : id ∈ nodeIds m'.visits := by
    rw [← m'.nodeIds_withoutSpan, hmethod, m.nodeIds_withoutSpan]
    exact hid
  have hname : c'.name = c.name := (ClassDecl.mk.inj hclass).2.1
  obtain ⟨-, -, -, hformals, hlocals, -, -⟩ := MethodDecl.mk.inj hmethod
  change a'.scopes.resolve? id name = a.scopes.resolve? id name
  rw [ha'.resolve? hids' (h.mem_classes hc') hm' hid', ha.resolve? hids hc hm hid, hname,
    VarDecl.bind_withoutSpan hformals, VarDecl.bind_withoutSpan hlocals]
  congr 1
  refine h.said_of_lineage _ (fun L => ?_) ha ha' (List.mem_map_of_mem hc)
  rw [List.findSome?_map]
  refine congrArg (List.findSome? · L) (funext fun d => ?_)
  exact congrArg (List.lookup name) (List.map_map ..)

theorem within_main (h : p.Extends p' old new) (ha : a.Describes p) (ha' : a'.Describes p')
    (hids : (nodeIds p.visits).Nodup) (hids' : (nodeIds p'.visits).Nodup) :
    Context.Within (nodeIds p.main.visits) ⟨a, none⟩ ⟨a', none⟩ := by
  refine ⟨h.within ha ha', rfl, fun id hid name => ?_⟩
  have hid' : id ∈ nodeIds p'.main.visits := by
    rw [← p'.main.nodeIds_withoutSpan, h.main, p.main.nodeIds_withoutSpan]
    exact hid
  change a'.scopes.resolve? id name = a.scopes.resolve? id name
  rw [ha'.resolve?_main hids' hid', ha.resolve?_main hids hid]

theorem checkNames_failsFrom {mainName : String} (hnew : ∀ c ∈ new, k ≤ c.node.span.start) :
    ∀ {cs old : List ClassDecl} {seen : List String}, old.map (·.name) = cs.map (·.name) →
      checkNames mainName seen cs = .ok () → FailsFrom k (checkNames mainName seen (old ++ new))
  | [], [], _, _, _ => Forest.checkNames_failsFrom mainName new hnew
  | c :: cs, c' :: old, seen, hnames, h => by
      obtain ⟨hname, hrest⟩ := List.cons.inj hnames
      change c'.name = c.name at hname
      rw [checkNames] at h
      rw [List.cons_append, checkNames, hname]
      split_ifs at h ⊢ with hmain hseen
      exact checkNames_failsFrom hnew hrest h

theorem checkSupers_failsFrom {declared declared' : List String} (hdeclared : declared ⊆ declared')
    (hnew : ∀ c ∈ new, k ≤ c.node.span.start) : ∀ {cs old : List ClassDecl} {earlier : List String},
      old.map (ClassDecl.mapNodes .withoutSpan) = cs.map (ClassDecl.mapNodes .withoutSpan) →
      checkSupers declared earlier cs = .ok () → FailsFrom k (checkSupers declared' earlier (old ++ new))
  | [], [], _, _, _ => Forest.checkSupers_failsFrom declared' new hnew
  | c :: cs, c' :: old, earlier, hsame, h => by
      obtain ⟨hclass, hrest⟩ := List.cons.inj hsame
      obtain ⟨-, hname, hsuper, -, -⟩ := ClassDecl.mk.inj hclass
      obtain ⟨_, hc, h⟩ := bind_eq_ok.mp h
      have hcarries : CarriesOver (checkSuper declared earlier c) (checkSuper declared' earlier c') := by
        rw [checkSuper, checkSuper, hsuper, hname]
        cases c.superName with
        | none => exact .refl _
        | some S => exact .guarded id (.guarded (fun hnot hmem => hnot (hdeclared hmem)) (.guarded id (.refl _)))
      rw [List.cons_append, checkSupers, hname]
      exact .bind (.of_ok (hcarries _ hc)) fun _ => checkSupers_failsFrom hdeclared hnew hrest h

/-- If the classes of a longer program form no forest, a new class is to blame. -/
theorem forest_failsFrom (h : p.Extends p' old new) {F : Forest} (hF : Forest.ofProgram p = .ok F)
    (hnew : ∀ c ∈ new, k ≤ c.node.span.start) : FailsFrom k (Forest.ofProgram p') := by
  obtain ⟨_, hnames, hF⟩ := bind_eq_ok.mp hF
  obtain ⟨_, hsupers, _⟩ := bind_eq_ok.mp hF
  have hmain : p'.main.name = p.main.name := (MainClass.mk.inj h.main).2.1
  have hdeclared : p.classes.map (·.name) ⊆ (old ++ new).map (·.name) := by
    rw [List.map_append, h.names]
    exact List.subset_append_left _ _
  rw [Forest.ofProgram, h.classes, hmain]
  refine .bind (checkNames_failsFrom hnew h.names hnames) fun _ => ?_
  exact .bind (checkSupers_failsFrom hdeclared hnew h.same hsupers) fun _ => .pure _

/-- An old method passes, with the method that it was. -/
theorem exists_method {c c' : ClassDecl} (hclass : c'.mapNodes .withoutSpan = c.mapNodes .withoutSpan)
    {m' : MethodDecl} (hm' : m' ∈ c'.methods) :
    ∃ m ∈ c.methods, m'.mapNodes .withoutSpan = m.mapNodes .withoutSpan := by
  have hmem := List.mem_map_of_mem hm' (f := MethodDecl.mapNodes .withoutSpan)
  rw [(ClassDecl.mk.inj hclass).2.2.2.2] at hmem
  obtain ⟨m, hm, heq⟩ := List.mem_map.mp hmem
  exact ⟨m, hm, heq.symm⟩

theorem checkDecl_old (h : p.Extends p' old new) (ha : a.Describes p) (ha' : a'.Describes p')
    (hcheck : p.check a = .ok ()) {c' : ClassDecl} (hc' : c' ∈ old) : c'.checkDecl a' = .ok () := by
  obtain ⟨c, hc, hclass⟩ := h.exists_class hc'
  have hsuper : ∀ S, c.superName = some S → ∀ name, a'.scopes.classMethod? S name = a.scopes.classMethod? S name := by
    intro S hS
    have hmem := ha.ordered.super_mem (List.mem_reverse.mpr hc) hS
    rw [List.map_reverse, List.mem_reverse] at hmem
    exact h.classMethod? ha ha' hmem
  exact ClassDecl.carries_checkDecl (h.within ha ha') (h.inheritedFields ha ha' (List.mem_map_of_mem hc)) hsuper
    hclass () ((Program.check_eq_ok.mp hcheck).1 c hc)

theorem checkBody_old (h : p.Extends p' old new) (ha : a.Describes p) (ha' : a'.Describes p')
    (hids : (nodeIds p.visits).Nodup) (hids' : (nodeIds p'.visits).Nodup) (hcheck : p.check a = .ok ())
    {c' : ClassDecl} (hc' : c' ∈ old) {m' : MethodDecl} (hm' : m' ∈ c'.methods) :
    m'.checkBody a' c'.name = .ok () := by
  obtain ⟨c, hc, hclass⟩ := h.exists_class hc'
  obtain ⟨m, hm, hmethod⟩ := exists_method hclass hm'
  rw [(ClassDecl.mk.inj hclass).2.1]
  exact MethodDecl.carries_checkBody (h.within_method ha ha' hids hids' hc hc' hclass hm hm' hmethod) hmethod ()
    ((Program.check_eq_ok.mp hcheck).2.2 c hc m hm)

/-- If a longer program does not pass, a node of a new class is to blame. -/
theorem check_failsFrom (h : p.Extends p' old new) (ha : a.Describes p) (ha' : a'.Describes p')
    (hids : (nodeIds p.visits).Nodup) (hids' : (nodeIds p'.visits).Nodup) (hcheck : p.check a = .ok ())
    (hnew : Later k (new.flatMap ClassDecl.visits)) : FailsFrom k (p'.check a') := by
  obtain ⟨-, ⟨assigned, hmain⟩, -⟩ := Program.check_eq_ok.mp hcheck
  have hbody : p'.main.body.mapNodes .withoutSpan = p.main.body.mapNodes .withoutSpan := (MainClass.mk.inj h.main).2.2.2
  have hmain' := Stmt.carries_check (h.within_main ha ha' hids hids') p.main.body p'.main.body
    (fun id hid => List.mem_cons_of_mem _ hid) hbody assigned hmain
  rw [Program.check, h.classes]
  refine .bind (.forM fun c' hc' => ?_) fun _ => .bind (.of_ok hmain') fun _ =>
    .forM fun c' hc' => .forM fun m' hm' => ?_
  · rcases List.mem_append.mp hc' with hc' | hc'
    · exact .of_ok (h.checkDecl_old ha ha' hcheck hc')
    · exact ClassDecl.checkDecl_failsFrom (hnew.of_mem_flatMap hc')
  · rcases List.mem_append.mp hc' with hc' | hc'
    · exact .of_ok (h.checkBody_old ha ha' hids hids' hcheck hc' hm')
    · exact MethodDecl.checkBody_failsFrom (ClassDecl.later_method (hnew.of_mem_flatMap hc') hm')

/-- Old classes keep their method tables. -/
theorem methodTables (h : p.Extends p' old new) (ha : a.Describes p) (ha' : a'.Describes p') :
    a'.catalog.methodTables =
      a.catalog.methodTables ++ new.map fun c => (p'.layoutOf c).methodTable c.name := by
  rw [ha'.methodTables, ha.methodTables, h.classes, List.map_append]
  congr 1
  refine map_eq_of_alike h.names fun c hc c' hc' hname => ?_
  have hlayout := h.layout? ha ha' (List.mem_map_of_mem hc)
  rw [← hname, ha'.layout?_of_mem (h.mem_classes hc'), hname, ha.layout?_of_mem hc] at hlayout
  rw [Option.some.inj hlayout, hname]

/-- Old methods keep their code, and that of the new ones comes behind it. -/
theorem lower (h : p.Extends p' old new) (ha : a.Describes p) (ha' : a'.Describes p')
    (hids : (nodeIds p.visits).Nodup) (hids' : (nodeIds p'.visits).Nodup) {M M' : IrModule}
    (hM : p.lower a = .ok M) (hM' : p'.lower a' = .ok M') :
    ∃ lowered, new.mapM (fun c => c.methods.mapM (·.lower a' c.name)) = .ok lowered ∧
      M' = ⟨M.preamble, M.tables ++ new.map fun c => (p'.layoutOf c).methodTable c.name,
        M.functions ++ lowered.flatten⟩ := by
  obtain ⟨main, hmain, hM⟩ := bind_eq_ok.mp hM
  obtain ⟨methods, hmethods, hM⟩ := bind_eq_ok.mp hM
  obtain rfl := pure_eq_ok.mp hM
  obtain ⟨main', hmain', hM'⟩ := bind_eq_ok.mp hM'
  obtain ⟨methods', hmethods', hM'⟩ := bind_eq_ok.mp hM'
  obtain rfl := pure_eq_ok.mp hM'
  have hsameMain := MainClass.carries_lower (h.within_main ha ha' hids hids') h.main main hmain
  rw [hsameMain] at hmain'
  obtain rfl := Except.ok.inj hmain'
  have hold : CarriesOver (p.classes.mapM fun c => c.methods.mapM (·.lower a c.name))
      (old.mapM fun c => c.methods.mapM (·.lower a' c.name)) := by
    refine .mapM h.same fun c hc c' hc' hclass => ?_
    rw [(ClassDecl.mk.inj hclass).2.1]
    refine .mapM (ClassDecl.mk.inj hclass).2.2.2.2 fun m hm m' hm' hmethod => ?_
    exact MethodDecl.carries_lower (h.within_method ha ha' hids hids' hc hc' hclass hm hm' hmethod) hmethod
  rw [h.classes, List.mapM_append, hold _ hmethods] at hmethods'
  obtain ⟨_, ⟨⟩, hmethods'⟩ := bind_eq_ok.mp hmethods'
  obtain ⟨lowered, hlowered, hmethods'⟩ := bind_eq_ok.mp hmethods'
  obtain rfl := pure_eq_ok.mp hmethods'
  refine ⟨lowered, hlowered, ?_⟩
  rw [h.methodTables ha ha', List.flatten_append, List.cons_append]

/-- A longer program is compiled to a longer module, or a new class is to blame. -/
theorem compile (h : p.Extends p' old new) (hids : (nodeIds p.visits).Nodup) (hids' : (nodeIds p'.visits).Nodup)
    (hnew : Later k (new.flatMap ClassDecl.visits)) {M : IrModule} (hM : p.compile true = .ok M) :
    (∃ e, p'.compile true = .error e ∧ e.BlamesFrom k) ∨
    ∃ a' lowered, Analysis.ofProgram p' = .ok a' ∧
      new.mapM (fun c => c.methods.mapM (·.lower a' c.name)) = .ok lowered ∧
      p'.compile true = .ok ⟨M.preamble, M.tables ++ new.map fun c => (p'.layoutOf c).methodTable c.name,
        M.functions ++ lowered.flatten⟩ := by
  obtain ⟨a, ha, hM⟩ := bind_eq_ok.mp hM
  rw [if_pos rfl] at hM
  obtain ⟨_, hcheck, hM⟩ := bind_eq_ok.mp hM
  rw [mapError_eq_ok] at hcheck hM
  cases ha' : Analysis.ofProgram p' with
  | error e =>
      obtain ⟨f, hf, rfl⟩ := Analysis.ofProgram_eq_error ha'
      obtain ⟨F, hF, _⟩ := bind_eq_ok.mp ha
      have hspan := h.forest_failsFrom (mapError_eq_ok.mp hF) (fun c hc => (hnew.of_mem_flatMap hc).head rfl) f hf
      exact .inl ⟨_, bind_eq_error.mpr (.inl ha'), .hierarchy, f.span, _, rfl, hspan⟩
  | ok a' =>
      have hdescribes := Analysis.describes ha
      have hdescribes' := Analysis.describes ha'
      cases hcheck' : p'.check a' with
      | error f =>
          have hspan := h.check_failsFrom hdescribes hdescribes' hids hids' hcheck hnew f hcheck'
          refine .inl ⟨.typing f, bind_eq_error.mpr (.inr ⟨a', ha', ?_⟩), .semantic, f.span, _, rfl, hspan⟩
          rw [if_pos rfl, hcheck']
          rfl
      | ok u =>
          obtain ⟨M', hM'⟩ := Program.exists_lower hids' ha' hcheck'
          obtain ⟨lowered, hlowered, rfl⟩ := h.lower hdescribes hdescribes' hids hids' hM hM'
          refine .inr ⟨a', lowered, rfl, hlowered, bind_eq_ok.mpr ⟨a', ha', ?_⟩⟩
          rw [if_pos rfl, hcheck', hM']
          rfl

end Program.Extends

theorem compile_of_isValid {source : String} (h : (isValid source).toOption = some true) :
    ∃ ir, compile source = .ok ir := by
  have hvalid := toOption_eq_some.mp h
  rcases verdict_cases source with ⟨e, hverdict, _⟩ | ⟨e, hverdict, _⟩ | ⟨ir, _, hir⟩
  · cases hvalid.symm.trans hverdict
  · cases hvalid.symm.trans hverdict
  · exact ⟨ir, hir⟩

theorem compile_of_not_isValid {source : String} (h : (isValid source).toOption = some false) :
    ∃ e, compile source = .error e := by
  have hinvalid := toOption_eq_some.mp h
  rcases verdict_cases source with ⟨e, hverdict, _⟩ | ⟨e, _, he, _⟩ | ⟨ir, hverdict, _⟩
  · cases hinvalid.symm.trans hverdict
  · exact ⟨e, he⟩
  · cases hinvalid.symm.trans hverdict

/-- A source text that is compiled goes on in a new line. Whatever is wrong with the longer text is behind the end of
the shorter one, where it is a matter of reading, of the hierarchy or of types. Otherwise the module of the longer
text is that of the shorter one, with the method tables of the classes that the continuation declares behind the
others, and the functions of their methods behind the others. -/
theorem compile_append {source ir : String} (h : compile source = .ok ir) (more : String) :
    (∃ e, compile (source ++ "\n" ++ more) = .error e ∧ e.BlamesFrom (source.utf8ByteSize + 1)) ∨
    ∃ (p p' : Program) (a' : Analysis) (M : IrModule) (old new : List ClassDecl) (lowered : List (List IrFunction)),
      parse source = .ok p ∧ p.compile true = .ok M ∧ ir = M.render ∧
      parse (source ++ "\n" ++ more) = .ok p' ∧ Analysis.ofProgram p' = .ok a' ∧
      p.Extends p' old new ∧ Later (source.utf8ByteSize + 1) (new.flatMap ClassDecl.visits) ∧
      new.mapM (fun c => c.methods.mapM (·.lower a' c.name)) = .ok lowered ∧
      compile (source ++ "\n" ++ more) = .ok (IrModule.render ⟨M.preamble,
        M.tables ++ new.map fun c => (p'.layoutOf c).methodTable c.name, M.functions ++ lowered.flatten⟩) := by
  obtain ⟨p, hparse, hcompile⟩ := bind_eq_ok.mp h
  obtain ⟨M, hM, hir⟩ := bind_eq_ok.mp hcompile
  obtain rfl := pure_eq_ok.mp hir
  have hmore := parse_newline hparse more
  cases hparse' : parse (source ++ "\n" ++ more) with
  | error e =>
      rw [hparse'] at hmore
      exact .inl ⟨e, bind_eq_error.mpr (.inl hparse'), hmore⟩
  | ok p' =>
      rw [hparse'] at hmore
      obtain ⟨q, hq, hmain, new, hclasses, hnew⟩ := hmore
      obtain ⟨hqmain, hqclasses, _⟩ := Program.mk.inj hq
      have hextends : p.Extends p' q.classes new := ⟨by rw [hmain, hqmain], hclasses, hqclasses⟩
      rcases hextends.compile (nodeIds_nodup_of_parse hparse) (nodeIds_nodup_of_parse hparse') hnew hM with
        ⟨e, he, hblames⟩ | ⟨a', lowered, ha', hlowered, hM'⟩
      · exact .inl ⟨e, bind_eq_error.mpr (.inr ⟨p', hparse', bind_eq_error.mpr (.inl he)⟩), hblames⟩
      · refine .inr ⟨p, p', a', M, q.classes, new, lowered, hparse, hM, rfl, rfl, ha', hextends, hnew, hlowered, ?_⟩
        exact bind_eq_ok.mpr ⟨p', hparse', bind_eq_ok.mpr ⟨_, hM', rfl⟩⟩

/-- A program with one class besides the main class. -/
def pairSource : String :=
  "class M\x7bpublic static void main(String[]a)\x7bSystem.out.println(new A().f());\x7d\x7d " ++
    "class A\x7bint f()\x7breturn 1;\x7d\x7d"

/-- A subclass of the class. -/
def subclassSource : String :=
  "class B extends A\x7bint x;int f()\x7breturn x;\x7d\x7d"

/-- The program goes on with a subclass, but not with a second class of the same name. -/
theorem compile_append_pair :
    ∃ ir, compile pairSource = .ok ir ∧
      (∃ M tables functions, ir = IrModule.render M ∧
        compile (pairSource ++ "\n" ++ subclassSource) =
          .ok (IrModule.render ⟨M.preamble, M.tables ++ tables, M.functions ++ functions⟩)) ∧
      ∃ e, compile (pairSource ++ "\n" ++ "class A\x7b\x7d") = .error e ∧
        e.BlamesFrom (pairSource.utf8ByteSize + 1) := by
  have hvalid : (isValid pairSource).toOption = some true := by decide +kernel
  have hlonger : (isValid (pairSource ++ "\n" ++ subclassSource)).toOption = some true := by decide +kernel
  have hinvalid : (isValid (pairSource ++ "\n" ++ "class A\x7b\x7d")).toOption = some false := by decide +kernel
  obtain ⟨ir, hir⟩ := compile_of_isValid hvalid
  obtain ⟨ir', hir'⟩ := compile_of_isValid hlonger
  obtain ⟨e, he⟩ := compile_of_not_isValid hinvalid
  refine ⟨ir, hir, ?_, ?_⟩
  · rcases compile_append hir subclassSource with ⟨e, he, _⟩ | ⟨_, _, _, M, _, _, _, _, _, hM, _, _, _, _, _, hM'⟩
    · cases hir'.symm.trans he
    · exact ⟨M, _, _, hM, hM'⟩
  · rcases compile_append hir "class A\x7b\x7d" with h | ⟨_, _, _, _, _, _, _, _, _, _, _, _, _, _, _, h⟩
    · exact h
    · cases he.symm.trans h

end Demitasse
