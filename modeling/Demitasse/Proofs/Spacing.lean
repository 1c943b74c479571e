import Demitasse.Class.Describe
import Demitasse.Proofs.Erasure
import Demitasse.Proofs.Extension

/-! Texts with the same tokens. Nothing that is found out about a program depends on its spans: neither its forest and
its scopes, nor its types, nor its code. Texts that differ in their blanks and comments only are therefore read as the
same program, up to spans, and what is said about them is the same, up to the places of errors. -/

namespace Demitasse

section
variable {ε ε' α α' β β' : Type}

/-- Two computations both succeed, with results as `R` says, or both fail, with errors as `E` says. -/
def Alike (E : ε → ε' → Prop) (R : α → α' → Prop) : Except ε α → Except ε' α' → Prop
  | .ok a, .ok a' => R a a'
  | .error e, .error e' => E e e'
  | _, _ => False

namespace Alike

variable {E : ε → ε' → Prop} {R : α → α' → Prop} {S : β → β' → Prop}

theorem pure {a : α} {a' : α'} (h : R a a') : Alike E R (Pure.pure a) (Pure.pure a') :=
  h

theorem of_error {e : ε} {e' : ε'} (h : E e e') : Alike E R (.error e) (.error e') :=
  h

theorem bind_of_ok {x : Except ε α} {x' : Except ε' α'} {f : α → Except ε β} {f' : α' → Except ε' β'}
    (hx : Alike E R x x') (hf : ∀ a a', x = .ok a → x' = .ok a' → R a a' → Alike E S (f a) (f' a')) :
    Alike E S (x >>= f) (x' >>= f') := by
  cases x with
  | error e =>
      cases x' with
      | error e' => exact hx
      | ok a' => exact hx.elim
  | ok a =>
      cases x' with
      | error e' => exact hx.elim
      | ok a' => exact hf a a' rfl rfl hx

theorem bind {x : Except ε α} {x' : Except ε' α} {f : α → Except ε β} {f' : α → Except ε' β'}
    (hx : Alike E Eq x x') (hf : ∀ a, Alike E S (f a) (f' a)) : Alike E S (x >>= f) (x' >>= f') := by
  refine hx.bind_of_ok ?_
  rintro a _ - - rfl
  exact hf a

theorem ite {P : Prop} [Decidable P] {x y : Except ε α} {x' y' : Except ε' α'} (hx : Alike E R x x')
    (hy : Alike E R y y') : Alike E R (if P then x else y) (if P then x' else y') := by
  split
  · exact hx
  · exact hy

/-- Steps that fail under one condition. -/
theorem passing {P : Prop} [Decidable P] {e : ε} {e' : ε'} {f : Unit → Except ε β} {f' : Unit → Except ε' β'}
    (he : E e e') (hf : Alike E S (f ()) (f' ())) :
    Alike E S (if P then throw e >>= f else f ()) (if P then throw e' >>= f' else f' ()) :=
  .ite (.of_error he) hf

theorem forM {f : α → Except ε Unit} {f' : α' → Except ε' Unit} {g : α → α'} {l : List α}
    (h : ∀ a, Alike E Eq (f a) (f' (g a))) : Alike E Eq (l.forM f) ((l.map g).forM f') := by
  induction l with
  | nil => exact .pure rfl
  | cons a l ih => exact .bind (h a) fun _ => ih

theorem foldlM {f : β → α → Except ε β} {f' : β → α' → Except ε' β} {g : α → α'}
    (h : ∀ b a, Alike E Eq (f b a) (f' b (g a))) (l : List α) (b : β) :
    Alike E Eq (l.foldlM f b) ((l.map g).foldlM f' b) := by
  induction l generalizing b with
  | nil => exact .pure rfl
  | cons a l ih =>
      rw [List.map_cons, List.foldlM_cons, List.foldlM_cons]
      exact .bind (h b a) ih

theorem mapError {γ γ' : Type} {F : γ → γ' → Prop} {x : Except ε α} {x' : Except ε' α'} {w : ε → γ} {w' : ε' → γ'}
    (h : Alike E R x x') (hw : ∀ e e', E e e' → F (w e) (w' e')) : Alike F R (x.mapError w) (x'.mapError w') := by
  cases x with
  | error e =>
      cases x' with
      | error e' => exact hw e e' h
      | ok a' => exact h.elim
  | ok a =>
      cases x' with
      | error e' => exact h.elim
      | ok a' => exact h

end Alike

end

/-- Errors with one cause, at whatever places. -/
def Located.SameCause {α : Type} (e e' : Located α) : Prop :=
  e.cause = e'.cause

/-- Two computations that are like a third one are like each other. -/
theorem Alike.meet {ε α : Type} {R : α → α → Prop} {x x' y : Except (Located ε) α}
    (h : Alike Located.SameCause R x y) (h' : Alike Located.SameCause R x' y)
    (hR : ∀ a a' b, R a b → R a' b → R a a') : Alike Located.SameCause R x x' := by
  cases y with
  | error e =>
      cases x with
      | ok a => exact h.elim
      | error e₁ =>
          cases x' with
          | ok a' => exact h'.elim
          | error e₂ => exact Eq.trans h (Eq.symm h')
  | ok b =>
      cases x with
      | error e₁ => exact h.elim
      | ok a =>
          cases x' with
          | error e₂ => exact h'.elim
          | ok a' => exact hR a a' b h h'

namespace Forest

/-- A forest without spans. -/
def withoutSpans (F : Forest) : Forest :=
  ⟨F.classes.map (ClassDecl.mapNodes .withoutSpan)⟩

variable (F : Forest) (C D : String)

@[simp] theorem contains_withoutSpans : F.withoutSpans.contains C = F.contains C := by
  rw [contains, contains, find?, find?, withoutSpans, List.find?_map, Option.isSome_map]
  rfl

theorem lineage_withoutSpans :
    F.withoutSpans.lineage C = (F.lineage C).map (ClassDecl.mapNodes .withoutSpan) := by
  rw [lineage, lineage, withoutSpans, ← List.map_reverse, lineageIn_withoutSpan]

theorem ancestors_withoutSpans :
    F.withoutSpans.ancestors C = (F.ancestors C).map (ClassDecl.mapNodes .withoutSpan) := by
  rw [ancestors, ancestors, lineage_withoutSpans, List.map_tail]

@[simp] theorem isSubclass_withoutSpans : F.withoutSpans.isSubclass C D = F.isSubclass C D := by
  rw [isSubclass, isSubclass, contains_withoutSpans, ancestors_withoutSpans, List.any_map]
  rfl

@[simp] theorem depth?_withoutSpans : F.withoutSpans.depth? C = F.depth? C := by
  rw [depth?, depth?, contains_withoutSpans, ancestors_withoutSpans, List.length_map]

theorem inheritedFields_withoutSpans :
    ((F.withoutSpans.ancestors C).flatMap fun d => d.fields.map (·.name)) =
      (F.ancestors C).flatMap fun d => d.fields.map (·.name) := by
  rw [ancestors_withoutSpans, List.flatMap_map]
  refine congrArg (List.flatMap · _) (funext fun d => ?_)
  rw [ClassDecl.mapNodes, List.map_map]
  rfl

theorem descendantsIn_withoutSpan (later : List ClassDecl) (C : String) :
    descendantsIn (later.map (ClassDecl.mapNodes .withoutSpan)) C = descendantsIn later C := by
  induction later generalizing C with
  | nil => rfl
  | cons c later ih =>
      rw [List.map_cons, descendantsIn, descendantsIn, ih, ih]
      rfl

@[simp] theorem family_withoutSpans : F.withoutSpans.family C = F.family C := by
  have hdrop : F.withoutSpans.classes.dropWhile (fun c => c.name ≠ C) =
      (F.classes.dropWhile fun c => c.name ≠ C).map (ClassDecl.mapNodes .withoutSpan) := by
    rw [withoutSpans, List.dropWhile_map]
    rfl
  rw [family, family, hdrop]
  cases F.classes.dropWhile fun c => c.name ≠ C with
  | nil => rfl
  | cons c later => exact congrArg _ (descendantsIn_withoutSpan later c.name)

theorem rootNames_withoutSpans : F.withoutSpans.roots.map (·.name) = F.roots.map (·.name) := by
  rw [roots, roots, withoutSpans, List.filter_map, List.map_map]
  rfl

end Forest

namespace ScopeTable

theorem nodeScopes_withoutSpan (c : ClassDecl) (k : ScopeId) :
    (c.mapNodes .withoutSpan).nodeScopes k = c.nodeScopes k := by
  rw [ClassDecl.nodeScopes, ClassDecl.nodeScopes, ClassDecl.mapNodes, List.map_map, List.zipIdx_map, List.flatMap_map]
  refine congrArg _ (congrArg (List.flatMap · _) (funext fun mi => ?_))
  exact congrArg (List.map _) mi.1.nodeIds_withoutSpan

theorem methodScope_withoutSpan (m : MethodDecl) (C : String) (outer : List ScopeId) :
    (m.mapNodes .withoutSpan).scope C outer = m.scope C outer := by
  simp only [MethodDecl.scope, MethodDecl.mapNodes, List.map_map]
  rfl

theorem classScope_withoutSpan (c : ClassDecl) (outer : List ScopeId) :
    (c.mapNodes .withoutSpan).scope outer = c.scope outer := by
  simp only [ClassDecl.scope, ClassDecl.mapNodes, List.map_map, Function.comp_def, MethodDecl.signature_withoutSpan]
  rfl

theorem withClass_withoutSpan (t : ScopeTable) (c : ClassDecl) (outer : List ScopeId) (inherited : Option Layout) :
    t.withClass (c.mapNodes .withoutSpan) outer inherited = t.withClass c outer inherited := by
  have hmethods : (c.mapNodes .withoutSpan).methods.map (fun m => m.scope c.name (t.scopes.size :: outer)) =
      c.methods.map fun m => m.scope c.name (t.scopes.size :: outer) := by
    rw [ClassDecl.mapNodes, List.map_map]
    exact congrArg (List.map · _) (funext fun m => methodScope_withoutSpan m c.name _)
  rw [withClass, withClass, classScope_withoutSpan, nodeScopes_withoutSpan, Layout.ofClass_withoutSpan, ← hmethods]
  rfl

theorem ofMain_withoutSpan (m : MainClass) : ofMain (m.mapNodes .withoutSpan) = ofMain m := by
  rw [ofMain, ofMain, m.nodeIds_withoutSpan]
  rfl

open Located

theorem alike_surroundings (t : ScopeTable) (c : ClassDecl) :
    Alike SameCause Eq (t.surroundings c) (t.surroundings (c.mapNodes .withoutSpan)) := by
  have hsuper : (c.mapNodes .withoutSpan).superName = c.superName := rfl
  rw [surroundings, surroundings, hsuper]
  cases c.superName with
  | none => exact .pure rfl
  | some S =>
      dsimp only
      cases t.classScope? S with
      | none => exact .of_error rfl
      | some s =>
          cases t.layout? S with
          | none => exact .of_error rfl
          | some layout => exact .pure rfl

theorem alike_addClass (t : ScopeTable) (c : ClassDecl) :
    Alike SameCause Eq (t.addClass c) (t.addClass (c.mapNodes .withoutSpan)) := by
  refine .bind (t.alike_surroundings c) fun (outer, inherited) => ?_
  exact .pure (t.withClass_withoutSpan c outer inherited).symm

theorem alike_ofProgram (p : Program) : Alike SameCause Eq (ofProgram p) (ofProgram p.withoutSpans) := by
  have hclasses := Alike.foldlM alike_addClass p.classes (ofMain p.main)
  rw [ofProgram, ofProgram]
  change Alike _ _ _ (List.foldlM addClass (ofMain (p.main.mapNodes .withoutSpan)) _)
  rw [ofMain_withoutSpan]
  exact hclasses

end ScopeTable

open Located

/-- Two analyses that say the same, up to spans. -/
structure Analysis.Matches (a a' : Analysis) : Prop where
  forest : a.forest.withoutSpans = a'.forest.withoutSpans
  scopes : a.scopes = a'.scopes
  layout? : ∀ C, a.catalog.layout? C = a'.catalog.layout? C

/-- Code that stands in the same class, in the light of analyses that say the same. -/
structure Context.Matches (Γ Γ' : Context) : Prop where
  analysis : Γ.analysis.Matches Γ'.analysis
  className : Γ.className = Γ'.className

section
variable {a a' : Analysis} {Γ Γ' : Context} {assigned : List String}

namespace Analysis.Matches

theorem refl (a : Analysis) : a.Matches a :=
  ⟨rfl, rfl, fun _ => rfl⟩

theorem context (h : a.Matches a') (C : Option String) : Context.Matches ⟨a, C⟩ ⟨a', C⟩ :=
  ⟨h, rfl⟩

theorem contains (h : a.Matches a') (C : String) : a.forest.contains C = a'.forest.contains C := by
  rw [← a.forest.contains_withoutSpans, h.forest, a'.forest.contains_withoutSpans]

theorem assignable (h : a.Matches a') (actual expected : Ty) :
    a.forest.assignable actual expected = a'.forest.assignable actual expected := by
  unfold Forest.assignable
  split
  · rw [← a.forest.isSubclass_withoutSpans, h.forest, a'.forest.isSubclass_withoutSpans]
  · rfl

theorem alike_checkType (h : a.Matches a') (ty : Ty) (span span' : Span) :
    Alike SameCause Eq (a.forest.checkType ty span) (a'.forest.checkType ty span') := by
  unfold Forest.checkType
  split
  · rw [h.contains]
    exact .ite (.pure rfl) (.of_error rfl)
  · exact .pure rfl

theorem describe (h : a.Matches a') : a.describe = a'.describe := by
  have hnames : a.forest.roots.flatMap (fun root => a.forest.family root.name) =
      a'.forest.roots.flatMap fun root => a'.forest.family root.name :=
    calc a.forest.roots.flatMap (fun root => a.forest.family root.name)
        = (a.forest.roots.map (·.name)).flatMap a.forest.family := by rw [List.flatMap_map]
      _ = (a.forest.withoutSpans.roots.map (·.name)).flatMap a.forest.withoutSpans.family := by
          rw [Forest.rootNames_withoutSpans, funext a.forest.family_withoutSpans]
      _ = (a'.forest.roots.map (·.name)).flatMap a'.forest.family := by
          rw [h.forest, Forest.rootNames_withoutSpans, funext a'.forest.family_withoutSpans]
      _ = a'.forest.roots.flatMap fun root => a'.forest.family root.name := by rw [List.flatMap_map]
  have hdepth : a.forest.depth? = a'.forest.depth? := by
    rw [← funext a.forest.depth?_withoutSpans, h.forest, funext a'.forest.depth?_withoutSpans]
  rw [Analysis.describe, Analysis.describe, hnames, hdepth, funext h.layout?]

end Analysis.Matches

namespace Context.Matches

theorem alike_fits (h : Γ.Matches Γ') (role : Role) (expected actual : Ty) (span span' : Span) :
    Alike SameCause Eq (Γ.fits role expected span actual) (Γ'.fits role expected span' actual) := by
  rw [fits, fits, h.analysis.assignable]
  exact .ite (.pure rfl) (.of_error rfl)

theorem alike_resolve (h : Γ.Matches Γ') (node : Node) (name : String) :
    Alike SameCause Eq (Γ.resolve node name) (Γ'.resolve node.withoutSpan name) := by
  rw [resolve, resolve, ← h.analysis.scopes, Node.withoutSpan]
  cases Γ.analysis.scopes.resolve? node.id name with
  | none => exact .of_error rfl
  | some b => exact .pure rfl

theorem alike_readVariable (h : Γ.Matches Γ') (node : Node) (name : String) :
    Alike SameCause Eq (Γ.readVariable assigned node name) (Γ'.readVariable assigned node.withoutSpan name) :=
  .bind (h.alike_resolve node name) fun _ => .passing rfl (.pure rfl)

theorem alike_callee (h : Γ.Matches Γ') (node : Node) (owner : Ty) (method : String) (count : Nat)
    (span span' : Span) : Alike SameCause Eq (Γ.callee node span owner method count)
      (Γ'.callee node.withoutSpan span' owner method count) := by
  rw [callee, callee, ← h.analysis.scopes]
  cases owner.className? with
  | none => exact .of_error rfl
  | some C =>
      dsimp only
      cases Γ.analysis.scopes.classMethod? C method with
      | none => exact .of_error rfl
      | some signature => exact .ite (.pure rfl) (.of_error rfl)

end Context.Matches

/-! ### Checks without spans -/

mutual

theorem Expr.alike_typeOf (hΓ : Γ.Matches Γ') : ∀ e : Expr,
    Alike SameCause Eq (e.typeOf Γ assigned) ((e.mapNodes .withoutSpan).typeOf Γ' assigned)
  | .binary _ _ left right => by
      rw [mapNodes, typeOf, typeOf]
      refine .bind (left.alike_typeOf hΓ) fun _ => .bind (hΓ.alike_fits ..) fun _ => ?_
      exact .bind (right.alike_typeOf hΓ) fun _ => .bind (hΓ.alike_fits ..) fun _ => .pure rfl
  | .element _ array index => by
      rw [mapNodes, typeOf, typeOf]
      refine .bind (array.alike_typeOf hΓ) fun _ => .bind (hΓ.alike_fits ..) fun _ => ?_
      exact .bind (index.alike_typeOf hΓ) fun _ => .bind (hΓ.alike_fits ..) fun _ => .pure rfl
  | .length _ array => by
      rw [mapNodes, typeOf, typeOf]
      exact .bind (array.alike_typeOf hΓ) fun _ => .bind (hΓ.alike_fits ..) fun _ => .pure rfl
  | .call node owner method args => by
      have hlength : (Expr.mapNodesAll .withoutSpan args).length = args.length := by
        rw [Expr.mapNodesAll_eq, List.length_map]
      rw [mapNodes, typeOf, typeOf, hlength]
      refine .bind (owner.alike_typeOf hΓ) fun _ => .bind (hΓ.alike_callee ..) fun signature => ?_
      exact .bind (Expr.alike_checkArgs hΓ args _) fun _ => .pure rfl
  | .var node name => by
      rw [mapNodes, typeOf, typeOf]
      exact hΓ.alike_readVariable node name
  | .this _ => by
      rw [mapNodes, typeOf, typeOf, hΓ.className]
      cases Γ'.className with
      | none => exact .of_error rfl
      | some C => exact .pure rfl
  | .newArray _ size => by
      rw [mapNodes, typeOf, typeOf]
      exact .bind (size.alike_typeOf hΓ) fun _ => .bind (hΓ.alike_fits ..) fun _ => .pure rfl
  | .newObject _ C => by
      rw [mapNodes, typeOf, typeOf]
      exact .bind (hΓ.analysis.alike_checkType ..) fun _ => .pure rfl
  | .not _ operand => by
      rw [mapNodes, typeOf, typeOf]
      exact .bind (operand.alike_typeOf hΓ) fun _ => .bind (hΓ.alike_fits ..) fun _ => .pure rfl
  | .int _ _ | .bool _ _ => by
      rw [mapNodes, typeOf, typeOf]
      exact .pure rfl

theorem Expr.alike_checkArgs (hΓ : Γ.Matches Γ') : ∀ (args : List Expr) (formals : List Ty),
    Alike SameCause Eq (Expr.checkArgs Γ assigned args formals)
      (Expr.checkArgs Γ' assigned (Expr.mapNodesAll .withoutSpan args) formals)
  | [], _ => by
      rw [mapNodesAll, checkArgs, checkArgs]
      · exact .pure rfl
      · nofun
      · nofun
  | _ :: _, [] => by
      rw [checkArgs, checkArgs]
      · exact .pure rfl
      · nofun
      · nofun
  | arg :: args, formal :: formals => by
      rw [mapNodesAll, checkArgs, checkArgs]
      refine .bind (arg.alike_typeOf hΓ) fun _ => .bind (hΓ.alike_fits ..) fun _ => ?_
      exact Expr.alike_checkArgs hΓ args formals

end

theorem Expr.alike_check (hΓ : Γ.Matches Γ') (role : Role) (expected : Ty) (e : Expr) :
    Alike SameCause Eq (e.check Γ assigned role expected)
      ((e.mapNodes .withoutSpan).check Γ' assigned role expected) :=
  .bind (e.alike_typeOf hΓ) fun _ => hΓ.alike_fits ..

mutual

theorem Stmt.alike_check (hΓ : Γ.Matches Γ') : ∀ (s : Stmt) (assigned : List String),
    Alike SameCause Eq (s.check Γ assigned) ((s.mapNodes .withoutSpan).check Γ' assigned)
  | .block _ body, assigned => by
      rw [mapNodes, check, check]
      exact Stmt.alike_checkAll hΓ body assigned
  | .ifElse _ cond thenBranch elseBranch, assigned => by
      rw [mapNodes, check, check]
      refine .bind (cond.alike_check hΓ ..) fun _ => .bind (thenBranch.alike_check hΓ assigned) fun afterThen => ?_
      exact .bind (elseBranch.alike_check hΓ assigned) fun afterElse => .pure rfl
  | .loop _ cond body, assigned => by
      rw [mapNodes, check, check]
      exact .bind (cond.alike_check hΓ ..) fun _ => .bind (body.alike_check hΓ assigned) fun _ => .pure rfl
  | .print _ arg, assigned => by
      rw [mapNodes, check, check]
      exact .bind (arg.alike_check hΓ ..) fun _ => .pure rfl
  | .assign node target value, assigned => by
      rw [mapNodes, check, check]
      refine .bind (value.alike_typeOf hΓ) fun _ => .bind (hΓ.alike_resolve node target) fun b => ?_
      exact .bind (hΓ.alike_fits ..) fun _ => .pure rfl
  | .assignElement node target index value, assigned => by
      rw [mapNodes, check, check]
      refine .bind (hΓ.alike_readVariable node target) fun _ => .passing rfl ?_
      exact .bind (index.alike_check hΓ ..) fun _ => .bind (value.alike_check hΓ ..) fun _ => .pure rfl

theorem Stmt.alike_checkAll (hΓ : Γ.Matches Γ') : ∀ (ss : List Stmt) (assigned : List String),
    Alike SameCause Eq (Stmt.checkAll Γ assigned ss) (Stmt.checkAll Γ' assigned (Stmt.mapNodesAll .withoutSpan ss))
  | [], _ => by
      rw [mapNodesAll, checkAll, checkAll]
      exact .pure rfl
  | s :: rest, assigned => by
      rw [mapNodesAll, checkAll, checkAll]
      exact .bind (s.alike_check hΓ assigned) fun assigned => Stmt.alike_checkAll hΓ rest assigned

end

theorem MethodDecl.alike_checkBody (ha : a.Matches a') (C : String) (m : MethodDecl) :
    Alike SameCause Eq (m.checkBody a C) ((m.mapNodes .withoutSpan).checkBody a' C) :=
  .bind (Stmt.alike_checkAll (ha.context (some C)) m.body []) fun _ =>
    m.result.alike_check (ha.context (some C)) .returned m.returnType

theorem ClassDecl.alike_checkFields (ha : a.Matches a') (c : ClassDecl) (inherited : List String) :
    ∀ (fs : List VarDecl) (seen : List String), Alike SameCause Eq (c.checkFields a.forest inherited seen fs)
      ((c.mapNodes .withoutSpan).checkFields a'.forest inherited seen (fs.map (VarDecl.mapNodes .withoutSpan)))
  | [], _ => .pure rfl
  | f :: rest, seen => by
      refine .bind (ha.alike_checkType ..) fun _ => .passing rfl (.passing rfl ?_)
      exact c.alike_checkFields ha inherited rest (f.name :: seen)

theorem Analysis.Matches.alike_checkBindings (ha : a.Matches a') (repeated : String → TypingFault) :
    ∀ (vs : List VarDecl) (seen : List String), Alike SameCause Eq (checkBindings a.forest repeated seen vs)
      (checkBindings a'.forest repeated seen (vs.map (VarDecl.mapNodes .withoutSpan)))
  | [], _ => .pure rfl
  | v :: rest, seen => by
      refine .bind (ha.alike_checkType ..) fun _ => .passing rfl ?_
      exact ha.alike_checkBindings repeated rest (v.name :: seen)

theorem MethodDecl.alike_checkOverride (ha : a.Matches a') (c : ClassDecl) (m : MethodDecl) :
    Alike SameCause Eq (m.checkOverride a c)
      ((m.mapNodes .withoutSpan).checkOverride a' (c.mapNodes .withoutSpan)) := by
  have hformals : (m.mapNodes .withoutSpan).formals.map (·.ty) = m.formals.map (·.ty) := by
    rw [mapNodes, List.map_map]
    rfl
  have hoverridden : ((c.mapNodes .withoutSpan).superName.bind fun S =>
      a'.scopes.classMethod? S (m.mapNodes .withoutSpan).name) =
      c.superName.bind fun S => a.scopes.classMethod? S m.name := by
    rw [ha.scopes]
    rfl
  rw [checkOverride, checkOverride, hoverridden]
  cases c.superName.bind fun S => a.scopes.classMethod? S m.name with
  | none => exact .pure rfl
  | some overridden =>
      dsimp only
      rw [hformals, ha.assignable]
      exact .passing rfl (.ite (.of_error rfl) (.pure rfl))

theorem MethodDecl.alike_checkDecl (ha : a.Matches a') (c : ClassDecl) (m : MethodDecl) :
    Alike SameCause Eq (m.checkDecl a c) ((m.mapNodes .withoutSpan).checkDecl a' (c.mapNodes .withoutSpan)) := by
  refine .bind (ha.alike_checkType ..) fun _ => .bind (ha.alike_checkBindings _ m.formals []) fun names => ?_
  exact .bind (ha.alike_checkBindings _ m.locals names) fun _ => m.alike_checkOverride ha c

theorem ClassDecl.alike_checkMethods (ha : a.Matches a') (c : ClassDecl) :
    ∀ (ms : List MethodDecl) (seen : List String), Alike SameCause Eq (c.checkMethods a seen ms)
      ((c.mapNodes .withoutSpan).checkMethods a' seen (ms.map (MethodDecl.mapNodes .withoutSpan)))
  | [], _ => .pure rfl
  | m :: rest, seen => by
      rw [List.map_cons, checkMethods, checkMethods]
      refine .passing rfl (.bind (m.alike_checkDecl ha c) fun _ => ?_)
      exact c.alike_checkMethods ha rest (m.name :: seen)

theorem ClassDecl.alike_checkDecl (ha : a.Matches a') (c : ClassDecl) :
    Alike SameCause Eq (c.checkDecl a) ((c.mapNodes .withoutSpan).checkDecl a') := by
  have hinherited : ((a'.forest.ancestors c.name).flatMap fun d => d.fields.map (·.name)) =
      (a.forest.ancestors c.name).flatMap fun d => d.fields.map (·.name) := by
    rw [← a.forest.inheritedFields_withoutSpans, ha.forest, a'.forest.inheritedFields_withoutSpans]
  rw [checkDecl, checkDecl]
  refine .bind ?_ fun _ => c.alike_checkMethods ha c.methods []
  rw [← hinherited]
  exact c.alike_checkFields ha _ c.fields []

/-- A program is found to be sound or unsound without its spans. -/
theorem Program.alike_check (ha : a.Matches a') (p : Program) :
    Alike SameCause Eq (p.check a) (p.withoutSpans.check a') := by
  refine .bind (.forM (·.alike_checkDecl ha)) fun _ => ?_
  refine .bind (p.main.body.alike_check (ha.context none) []) fun _ => .forM fun c => ?_
  exact .forM (·.alike_checkBody ha c.name)

end

/-- A report without the place that it is about. -/
def Diagnostic.withoutSpan : Diagnostic → Diagnostic
  | .source stage _ message => .source stage .origin message
  | .codegen message => .codegen message
  | .io message => .io message

/-- Errors of one kind with one message, at whatever places. -/
def CompileError.SameReport (e e' : CompileError) : Prop :=
  e.diagnostic.withoutSpan = e'.diagnostic.withoutSpan

/-- Outcomes that differ in the places of errors only. -/
abbrev SameOutcome {α : Type} (R : α → α → Prop) : Except CompileError α → Except CompileError α → Prop :=
  Alike CompileError.SameReport R

theorem Diagnostic.isRejection_withoutSpan (d : Diagnostic) : d.withoutSpan.isRejection = d.isRejection := by
  cases d with
  | source stage span message => cases stage <;> rfl
  | codegen message => rfl
  | io message => rfl

theorem CompileError.SameReport.isRejection {e e' : CompileError} (h : e.SameReport e') :
    e.isRejection = e'.isRejection :=
  calc e.isRejection
      = e.diagnostic.withoutSpan.isRejection := e.diagnostic.isRejection_withoutSpan.symm
    _ = e'.diagnostic.withoutSpan.isRejection := by rw [h]
    _ = e'.isRejection := e'.diagnostic.isRejection_withoutSpan

namespace Forest

theorem alike_checkNames (mainName : String) : ∀ (cs : List ClassDecl) (seen : List String),
    Alike SameCause Eq (checkNames mainName seen cs)
      (checkNames mainName seen (cs.map (ClassDecl.mapNodes .withoutSpan)))
  | [], _ => .pure rfl
  | c :: rest, seen => .ite (.of_error rfl) (.ite (.of_error rfl) (alike_checkNames mainName rest (c.name :: seen)))

theorem alike_checkSuper (declared earlier : List String) (c : ClassDecl) :
    Alike SameCause Eq (checkSuper declared earlier c) (checkSuper declared earlier (c.mapNodes .withoutSpan)) := by
  have hsuper : (c.mapNodes .withoutSpan).superName = c.superName := rfl
  rw [checkSuper, checkSuper, hsuper]
  cases c.superName with
  | none => exact .pure rfl
  | some S => exact .ite (.of_error rfl) (.ite (.of_error rfl) (.ite (.of_error rfl) (.pure rfl)))

theorem alike_checkSupers (declared : List String) : ∀ (cs : List ClassDecl) (earlier : List String),
    Alike SameCause Eq (checkSupers declared earlier cs)
      (checkSupers declared earlier (cs.map (ClassDecl.mapNodes .withoutSpan)))
  | [], _ => .pure rfl
  | c :: rest, earlier =>
      .bind (alike_checkSuper declared earlier c) fun _ => alike_checkSupers declared rest (c.name :: earlier)

theorem alike_ofProgram (p : Program) :
    Alike SameCause (fun _ _ => True) (Forest.ofProgram p) (Forest.ofProgram p.withoutSpans) := by
  have hdeclared : p.withoutSpans.classes.map (·.name) = p.classes.map (·.name) := by
    change (p.classes.map _).map _ = _
    rw [List.map_map]
    rfl
  rw [Forest.ofProgram, Forest.ofProgram, hdeclared]
  refine .bind (alike_checkNames p.main.name p.classes []) fun _ => ?_
  exact .bind (alike_checkSupers _ p.classes []) fun _ => .pure trivial

end Forest

section
variable {p p' : Program} {a a' : Analysis}

theorem Analysis.Describes.matches (h : a.Describes p) (h' : a'.Describes p')
    (hp : p.withoutSpans = p'.withoutSpans) : a.Matches a' := by
  have hclasses : p.classes.map (ClassDecl.mapNodes .withoutSpan) = p'.classes.map (ClassDecl.mapNodes .withoutSpan) :=
    (Program.mk.inj hp).2.1
  have hforest : a.forest.withoutSpans = a'.forest.withoutSpans := by
    rw [h.forest, h'.forest, Forest.withoutSpans, Forest.withoutSpans, hclasses]
  refine ⟨hforest, ?_, fun C => ?_⟩
  · have hscopes := ScopeTable.alike_ofProgram p'
    rw [← hp, h'.found] at hscopes
    have hboth := (ScopeTable.alike_ofProgram p).meet hscopes fun _ _ _ h h' => h.trans h'.symm
    rw [h.found] at hboth
    exact hboth
  · rw [h.layout?, h'.layout?, ← Layout.ofLineage_withoutSpan, ← Layout.ofLineage_withoutSpan (a'.forest.lineage C),
      ← Forest.lineage_withoutSpans, ← Forest.lineage_withoutSpans, hforest]

theorem Analysis.sameOutcome_ofProgram (hp : p.withoutSpans = p'.withoutSpans) :
    SameOutcome Analysis.Matches (Analysis.ofProgram p) (Analysis.ofProgram p') := by
  have hforest := Forest.alike_ofProgram p'
  rw [← hp] at hforest
  replace hforest := (Forest.alike_ofProgram p).meet hforest fun _ _ _ _ _ => trivial
  cases hF : Forest.ofProgram p with
  | error f =>
      cases hF' : Forest.ofProgram p' with
      | ok F' =>
          rw [hF, hF'] at hforest
          exact hforest.elim
      | error f' =>
          rw [hF, hF'] at hforest
          rw [Analysis.ofProgram, Analysis.ofProgram, hF, hF']
          exact congrArg (fun cause => Diagnostic.source .hierarchy .origin (HierarchyFault.message cause)) hforest
  | ok F =>
      cases hF' : Forest.ofProgram p' with
      | error f' =>
          rw [hF, hF'] at hforest
          exact hforest.elim
      | ok F' =>
          obtain ⟨a, ha, hdescribes⟩ := Analysis.ofProgram_of_forest hF
          obtain ⟨a', ha', hdescribes'⟩ := Analysis.ofProgram_of_forest hF'
          rw [ha, ha']
          exact hdescribes.matches hdescribes' hp

theorem Program.sameOutcome_check (ha : a.Matches a') (hp : p.withoutSpans = p'.withoutSpans) :
    SameOutcome Eq ((p.check a).mapError .typing) ((p'.check a').mapError .typing) := by
  have hcheck := p'.alike_check (.refl a')
  rw [← hp] at hcheck
  refine ((p.alike_check ha).meet hcheck fun _ _ _ h h' => h.trans h'.symm).mapError fun f f' hcause => ?_
  exact congrArg (fun cause => Diagnostic.source .semantic .origin (TypingFault.message cause)) hcause

theorem Program.sameOutcome_validate (hp : p.withoutSpans = p'.withoutSpans) :
    SameOutcome Eq p.validate p'.validate :=
  (Analysis.sameOutcome_ofProgram hp).bind_of_ok fun _ _ _ _ ha => Program.sameOutcome_check ha hp

/-- A program is the extension by no class of every program that differs from it in spans only. -/
theorem Program.extends_of_withoutSpans (hp : p.withoutSpans = p'.withoutSpans) : p.Extends p' p'.classes [] where
  main := (Program.mk.inj hp).1.symm
  classes := (List.append_nil _).symm
  same := (Program.mk.inj hp).2.1.symm

theorem Program.sameOutcome_compile (hids : (nodeIds p.visits).Nodup) (hids' : (nodeIds p'.visits).Nodup)
    (hp : p.withoutSpans = p'.withoutSpans) : SameOutcome Eq (p.compile true) (p'.compile true) := by
  refine (Analysis.sameOutcome_ofProgram hp).bind_of_ok fun a a' ha ha' hmatches => ?_
  rw [if_pos rfl, if_pos rfl]
  refine (Program.sameOutcome_check hmatches hp).bind_of_ok fun _ _ hcheck hcheck' _ => ?_
  rw [mapError_eq_ok] at hcheck hcheck'
  obtain ⟨M, hM⟩ := Program.exists_lower hids ha hcheck
  obtain ⟨M', hM'⟩ := Program.exists_lower hids' ha' hcheck'
  obtain ⟨lowered, hlowered, hsame⟩ := (Program.extends_of_withoutSpans hp).lower (Analysis.describes ha)
    (Analysis.describes ha') hids hids' hM hM'
  obtain rfl := pure_eq_ok.mp hlowered
  rw [hM, hM', hsame]
  exact .pure (by simp)

end

/-! ### Texts with the same tokens -/

theorem sameOutcome_parse {source source' : String} {lexemes lexemes' : List Lexeme} (h : scan source = .ok lexemes)
    (h' : scan source' = .ok lexemes') (htokens : lexemes.map (·.token) = lexemes'.map (·.token)) :
    SameOutcome (fun p p' => p.withoutSpans = p'.withoutSpans) (parse source) (parse source') := by
  have hstart : (Cursor.start lexemes).withoutSpans = (Cursor.start lexemes').withoutSpans := by
    rw [Cursor.withoutSpans, Cursor.withoutSpans]
    exact congrArg (Cursor.mk · _ _) (withoutSpan_of_tokens htokens)
  have hrun := Parser.program_erases (.start lexemes)
  rw [hstart, Parser.program_erases (.start lexemes')] at hrun
  rw [parse_of_scan h, parse_of_scan h']
  cases hp : Parser.program.run (.start lexemes) with
  | ok p c =>
      cases hp' : Parser.program.run (.start lexemes') with
      | ok p' c' =>
          rw [hp, hp'] at hrun
          exact (EStateM.Result.ok.inj hrun).1.symm
      | error e' c' =>
          rw [hp, hp'] at hrun
          cases hrun
  | error e c =>
      cases hp' : Parser.program.run (.start lexemes') with
      | ok p' c' =>
          rw [hp, hp'] at hrun
          cases hrun
      | error e' c' =>
          rw [hp, hp'] at hrun
          have hcause := congrArg Located.cause (EStateM.Result.error.inj hrun).1
          exact congrArg (fun cause => Diagnostic.source .parse .origin (SyntaxFault.message cause)) hcause.symm

/-- Blanks and comments do not matter. Of two texts with the same tokens, either both are read, as the same program up
to spans, or both fail to be read; and the two have the same code, the same verdict, the same printed form and the
same listing of their classes. Where one of these fails for the one text, it fails for the other, with an error of the
same kind and the same message. -/
theorem outcomes_of_same_tokens {source source' : String} {lexemes lexemes' : List Lexeme}
    (h : scan source = .ok lexemes) (h' : scan source' = .ok lexemes')
    (htokens : lexemes.map (·.token) = lexemes'.map (·.token)) :
    SameOutcome (fun p p' => p.withoutSpans = p'.withoutSpans) (parse source) (parse source') ∧
    SameOutcome Eq (compile source) (compile source') ∧
    SameOutcome Eq (isValid source) (isValid source') ∧
    SameOutcome Eq (do return (← parse source).render) (do return (← parse source').render) ∧
    SameOutcome Eq (do return (← Analysis.ofProgram (← parse source)).describe)
      (do return (← Analysis.ofProgram (← parse source')).describe) := by
  have hparse := sameOutcome_parse h h' htokens
  refine ⟨hparse, ?compile, ?isValid, ?render, ?describe⟩
  case compile =>
    refine hparse.bind_of_ok fun p p' hp hp' hsame => ?_
    have hids := nodeIds_nodup_of_parse hp
    have hids' := nodeIds_nodup_of_parse hp'
    exact .bind (Program.sameOutcome_compile hids hids' hsame) fun M => .pure rfl
  case isValid =>
    refine hparse.bind_of_ok fun p p' _ _ hsame => ?_
    have hvalidate := Program.sameOutcome_validate hsame
    cases hp : p.validate with
    | ok u =>
        cases hp' : p'.validate with
        | ok u' => exact .pure rfl
        | error e' =>
            rw [hp, hp'] at hvalidate
            exact hvalidate.elim
    | error e =>
        cases hp' : p'.validate with
        | ok u' =>
            rw [hp, hp'] at hvalidate
            exact hvalidate.elim
        | error e' =>
            rw [hp, hp'] at hvalidate
            dsimp only
            rw [hvalidate.isRejection]
            exact .ite (.pure rfl) (.of_error hvalidate)
  case render =>
    refine hparse.bind_of_ok fun p p' _ _ hsame => .pure ?_
    calc p.render
        = p.withoutSpans.render := (p.render_mapNodes _).symm
      _ = p'.withoutSpans.render := by rw [hsame]
      _ = p'.render := p'.render_mapNodes _
  case describe =>
    refine hparse.bind_of_ok fun p p' _ _ hsame => ?_
    exact (Analysis.sameOutcome_ofProgram hsame).bind_of_ok fun a a' _ _ hmatches => .pure hmatches.describe

/-- A program that reads a variable without a declaration. -/
def unboundSource : String :=
  "class M\x7bpublic static void main(String[]a)\x7bSystem.out.println(x);\x7d\x7d"

/-- The same program with blanks and comments. -/
def unboundSpacedSource : String :=
  "class M \x7b // entry\n  public static void main ( String [ ] a ) \x7b\n" ++
    "    System.out.println( /* lost */ x );\n  \x7d\n\x7d\n"

/-- Both texts are rejected for the same variable, which stands at different places. -/
theorem outcomes_of_same_tokens_unbound : ∃ lexemes lexemes',
    scan unboundSource = .ok lexemes ∧ scan unboundSpacedSource = .ok lexemes' ∧
    lexemes.map (·.token) = lexemes'.map (·.token) ∧
    compile unboundSource = .error (.typing ⟨⟨62, 63⟩, .undeclared "x"⟩) ∧
    compile unboundSpacedSource = .error (.typing ⟨⟨99, 100⟩, .undeclared "x"⟩) ∧
    SameOutcome Eq (compile unboundSource) (compile unboundSpacedSource) := by
  have htokens : (scan unboundSource).toOption.map (·.map (·.token)) =
      (scan unboundSpacedSource).toOption.map (·.map (·.token)) := by decide +kernel
  have hscanned : (scan unboundSource).toOption.isSome = true := by decide +kernel
  obtain ⟨lexemes, hlexemes⟩ := Option.isSome_iff_exists.mp hscanned
  rw [hlexemes] at htokens
  obtain ⟨lexemes', hlexemes', hsame⟩ := Option.map_eq_some_iff.mp htokens.symm
  rw [toOption_eq_some] at hlexemes hlexemes'
  refine ⟨lexemes, lexemes', hlexemes, hlexemes', hsame.symm, by decide +kernel, by decide +kernel, ?_⟩
  exact (outcomes_of_same_tokens hlexemes hlexemes' hsame.symm).2.1

end Demitasse
