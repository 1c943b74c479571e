import Demitasse.Proofs.Lowering
import Demitasse.Proofs.Shape

/-! What is found in one context is found in every context that knows as much. Types and code of a tree do not
depend on its spans, and they stay the same where the classes, the methods, the layouts and the meaning of names
that were known are still known. -/

namespace Demitasse

section
variable {ε ε' α β γ : Type}

/-- The second computation succeeds wherever the first does, with the same result. -/
def CarriesOver (x : Except ε α) (y : Except ε' α) : Prop :=
  ∀ a, x = .ok a → y = .ok a

theorem map_eq_of_alike {look : α → γ} {f g : α → β} : ∀ {as bs : List α}, bs.map look = as.map look →
    (∀ a ∈ as, ∀ b ∈ bs, look b = look a → g b = f a) → bs.map g = as.map f
  | [], [], _, _ => rfl
  | a :: as, b :: bs, hlook, h => by
      obtain ⟨hhead, htail⟩ := List.cons.inj hlook
      rw [List.map_cons, List.map_cons, h a (.head _) b (.head _) hhead,
        map_eq_of_alike htail fun a' ha' b' hb' => h a' (.tail _ ha') b' (.tail _ hb')]

namespace CarriesOver

theorem refl (x : Except ε α) : CarriesOver x x :=
  fun _ h => h

theorem pure (a : α) : CarriesOver (Pure.pure a : Except ε α) (Pure.pure a : Except ε' α) := by
  intro b h
  exact pure_eq_ok.mpr (pure_eq_ok.mp h)

theorem bind {x : Except ε α} {y : Except ε' α} {f : α → Except ε β} {g : α → Except ε' β}
    (hx : CarriesOver x y) (hf : ∀ a, CarriesOver (f a) (g a)) : CarriesOver (x >>= f) (y >>= g) := by
  intro b h
  obtain ⟨a, ha, hb⟩ := bind_eq_ok.mp h
  exact bind_eq_ok.mpr ⟨a, hx a ha, hf a b hb⟩

/-- What is tried under a condition succeeds where the condition is refused no more often. -/
theorem guarded {P Q : Prop} [Decidable P] [Decidable Q] {e : ε} {e' : ε'} {x : Except ε α} {y : Except ε' α}
    (hcond : Q → P) (h : CarriesOver x y) :
    CarriesOver (if P then .error e else x) (if Q then .error e' else y) := by
  intro a ha
  by_cases hP : P
  · rw [if_pos hP] at ha
    cases ha
  · rw [if_neg hP] at ha
    rw [if_neg fun hQ => hP (hcond hQ)]
    exact h a ha

theorem passing {P Q : Prop} [Decidable P] [Decidable Q] {e : ε} {e' : ε'} {f : Unit → Except ε β}
    {g : Unit → Except ε' β} (hcond : Q → P) (hf : CarriesOver (f ()) (g ())) :
    CarriesOver (if P then throw e >>= f else f ()) (if Q then throw e' >>= g else g ()) :=
  guarded hcond hf

/-- Items in a row that look alike carry over together if each of them does. -/
theorem mapM {look : α → γ} {f : α → Except ε β} {g : α → Except ε' β} : ∀ {as bs : List α},
    bs.map look = as.map look → (∀ a ∈ as, ∀ b ∈ bs, look b = look a → CarriesOver (f a) (g b)) →
    CarriesOver (as.mapM f) (bs.mapM g)
  | [], [], _, _ => .pure []
  | a :: as, b :: bs, hlook, h => by
      obtain ⟨hhead, htail⟩ := List.cons.inj hlook
      rw [List.mapM_cons, List.mapM_cons]
      refine .bind (h a (.head _) b (.head _) hhead) fun _ => ?_
      refine .bind (CarriesOver.mapM htail fun a' ha' b' hb' => h a' (.tail _ ha') b' (.tail _ hb')) fun _ => ?_
      exact .pure _

end CarriesOver

end

/-- What is known about classes in one analysis is known in another. -/
structure Analysis.Within (a a' : Analysis) : Prop where
  isSubclass : ∀ {C D}, a.forest.isSubclass C D = true → a'.forest.isSubclass C D = true
  method : ∀ {C name signature}, a.scopes.classMethod? C name = some signature →
    a'.scopes.classMethod? C name = some signature
  layout : ∀ {C l}, a.catalog.layout? C = some l → a'.catalog.layout? C = some l

/-- What is known about classes in one context is known in another, and names mean the same at some nodes. -/
structure Context.Within (ids : List NodeId) (Γ Γ' : Context) : Prop where
  analysis : Γ.analysis.Within Γ'.analysis
  className : Γ'.className = Γ.className
  resolve? : ∀ id ∈ ids, ∀ name, Γ'.analysis.scopes.resolve? id name = Γ.analysis.scopes.resolve? id name

section
variable {a a' : Analysis} {Γ Γ' : Context} {ids : List NodeId} {assigned : List String} {node node' : Node}
  {name : String}

theorem Forest.contains_eq_isSubclass (F : Forest) (C : String) : F.contains C = F.isSubclass C C := by
  simp [isSubclass]

theorem Analysis.Within.contains (h : a.Within a') {C : String} (hC : a.forest.contains C = true) :
    a'.forest.contains C = true := by
  rw [Forest.contains_eq_isSubclass] at hC ⊢
  exact h.isSubclass hC

theorem Analysis.Within.checkType (h : a.Within a') {ty : Ty} {span span' : Span} :
    CarriesOver (a.forest.checkType ty span) (a'.forest.checkType ty span') := by
  rintro ⟨⟩ hty
  exact Forest.checkType_eq_ok.mpr fun C hC => h.contains (Forest.checkType_eq_ok.mp hty C hC)

theorem Analysis.Within.assignable (h : a.Within a') {actual expected : Ty}
    (hty : a.forest.assignable actual expected = true) : a'.forest.assignable actual expected = true := by
  cases actual with
  | object C =>
      cases expected with
      | object D => exact h.isSubclass hty
      | _ => exact hty
  | _ => exact hty

namespace Context.Within

theorem fits (h : Within ids Γ Γ') {role : Role} {expected actual : Ty} {span span' : Span} :
    CarriesOver (Γ.fits role expected span actual) (Γ'.fits role expected span' actual) := by
  rintro ⟨⟩ hfits
  exact Context.fits_eq_ok.mpr (h.analysis.assignable (Context.fits_eq_ok.mp hfits))

theorem resolve (h : Within ids Γ Γ') (hid : node.id ∈ ids) (hnode : node'.id = node.id) (name : String) :
    CarriesOver (Γ.resolve node name) (Γ'.resolve node' name) := by
  intro b hb
  rw [Context.resolve_eq_ok] at hb ⊢
  rw [hnode, h.resolve? node.id hid, hb]

theorem readVariable (h : Within ids Γ Γ') (hid : node.id ∈ ids) (hnode : node'.id = node.id) (name : String) :
    CarriesOver (Γ.readVariable assigned node name) (Γ'.readVariable assigned node' name) := by
  rw [Context.readVariable, Context.readVariable]
  refine .bind (h.resolve hid hnode name) fun b => ?_
  exact CarriesOver.passing id (.pure _)

theorem callee (h : Within ids Γ Γ') {owner : Ty} {method : String} {count : Nat} {span span' : Span} :
    CarriesOver (Γ.callee node span owner method count) (Γ'.callee node' span' owner method count) := by
  intro signature hsignature
  obtain ⟨C, howner, hmethod, hcount⟩ := Context.callee_eq_ok.mp hsignature
  exact Context.callee_eq_ok.mpr ⟨C, howner, h.analysis.method hmethod, hcount⟩

end Context.Within

/-! ### Types -/

theorem Node.id_of_withoutSpan (h : node'.withoutSpan = node.withoutSpan) : node'.id = node.id :=
  (Node.mk.inj h).1

mutual

/-- An expression keeps its type in a context that knows as much, whatever its spans. -/
theorem Expr.carries_typeOf (hΓ : Context.Within ids Γ Γ') : ∀ (e e' : Expr), nodeIds e.visits ⊆ ids →
    e'.mapNodes .withoutSpan = e.mapNodes .withoutSpan →
    CarriesOver (e.typeOf Γ assigned) (e'.typeOf Γ' assigned)
  | .binary node op left right, e', hids, h => by
      cases e' <;> simp only [mapNodes, reduceCtorEq, Expr.binary.injEq] at h
      obtain ⟨-, rfl, hleft, hright⟩ := h
      rw [Expr.visits, nodeIds_cons_of_some rfl, nodeIds_append, List.cons_subset, List.append_subset] at hids
      rw [typeOf, typeOf]
      refine .bind (left.carries_typeOf hΓ _ hids.2.1 hleft) fun _ => ?_
      refine .bind hΓ.fits fun _ => ?_
      refine .bind (right.carries_typeOf hΓ _ hids.2.2 hright) fun _ => ?_
      exact .bind hΓ.fits fun _ => .pure _
  | .element node array index, e', hids, h => by
      cases e' <;> simp only [mapNodes, reduceCtorEq, Expr.element.injEq] at h
      obtain ⟨-, harray, hindex⟩ := h
      rw [Expr.visits, nodeIds_cons_of_some rfl, nodeIds_append, List.cons_subset, List.append_subset] at hids
      rw [typeOf, typeOf]
      refine .bind (array.carries_typeOf hΓ _ hids.2.1 harray) fun _ => ?_
      refine .bind hΓ.fits fun _ => ?_
      refine .bind (index.carries_typeOf hΓ _ hids.2.2 hindex) fun _ => ?_
      exact .bind hΓ.fits fun _ => .pure _
  | .length node array, e', hids, h => by
      cases e' <;> simp only [mapNodes, reduceCtorEq, Expr.length.injEq] at h
      obtain ⟨-, harray⟩ := h
      rw [Expr.visits, nodeIds_cons_of_some rfl, List.cons_subset] at hids
      rw [typeOf, typeOf]
      refine .bind (array.carries_typeOf hΓ _ hids.2 harray) fun _ => ?_
      exact .bind hΓ.fits fun _ => .pure _
  | .call node owner method args, e', hids, h => by
      cases e' <;> simp only [mapNodes, reduceCtorEq, Expr.call.injEq] at h
      obtain ⟨-, howner, rfl, hargs⟩ := h
      rename_i node' owner' method args'
      have hlength : args'.length = args.length := by
        rw [mapNodesAll_eq, mapNodesAll_eq] at hargs
        simpa using congrArg List.length hargs
      rw [Expr.visits, nodeIds_cons_of_some rfl, nodeIds_append, List.cons_subset, List.append_subset] at hids
      rw [typeOf, typeOf, hlength]
      refine .bind (owner.carries_typeOf hΓ _ hids.2.1 howner) fun _ => ?_
      refine .bind hΓ.callee fun _ => ?_
      exact .bind (Expr.carries_checkArgs hΓ args args' _ hids.2.2 hargs) fun _ => .pure _
  | .int node value, e', _, h => by
      cases e' <;> simp only [mapNodes, reduceCtorEq] at h
      exact .pure _
  | .bool node value, e', _, h => by
      cases e' <;> simp only [mapNodes, reduceCtorEq] at h
      exact .pure _
  | .var node name, e', hids, h => by
      cases e' <;> simp only [mapNodes, reduceCtorEq, Expr.var.injEq] at h
      obtain ⟨hnode, rfl⟩ := h
      rw [typeOf, typeOf]
      exact hΓ.readVariable (hids List.mem_cons_self) (Node.id_of_withoutSpan hnode) _
  | .this node, e', _, h => by
      cases e' <;> simp only [mapNodes, reduceCtorEq] at h
      intro ty hty
      obtain ⟨C, hC, rfl⟩ := Expr.rule_of_typeOf hty
      rw [typeOf, hΓ.className, hC]
      rfl
  | .newArray node size, e', hids, h => by
      cases e' <;> simp only [mapNodes, reduceCtorEq, Expr.newArray.injEq] at h
      obtain ⟨-, hsize⟩ := h
      rw [Expr.visits, nodeIds_cons_of_some rfl, List.cons_subset] at hids
      rw [typeOf, typeOf]
      refine .bind (size.carries_typeOf hΓ _ hids.2 hsize) fun _ => ?_
      exact .bind hΓ.fits fun _ => .pure _
  | .newObject node className, e', _, h => by
      cases e' <;> simp only [mapNodes, reduceCtorEq, Expr.newObject.injEq] at h
      obtain ⟨-, rfl⟩ := h
      rw [typeOf, typeOf]
      exact .bind hΓ.analysis.checkType fun _ => .pure _
  | .not node operand, e', hids, h => by
      cases e' <;> simp only [mapNodes, reduceCtorEq, Expr.not.injEq] at h
      obtain ⟨-, hoperand⟩ := h
      rw [Expr.visits, nodeIds_cons_of_some rfl, List.cons_subset] at hids
      rw [typeOf, typeOf]
      refine .bind (operand.carries_typeOf hΓ _ hids.2 hoperand) fun _ => ?_
      exact .bind hΓ.fits fun _ => .pure _

theorem Expr.carries_checkArgs (hΓ : Context.Within ids Γ Γ') : ∀ (args args' : List Expr) (formals : List Ty),
    nodeIds (Expr.visitsAll args) ⊆ ids →
    Expr.mapNodesAll .withoutSpan args' = Expr.mapNodesAll .withoutSpan args →
    CarriesOver (Expr.checkArgs Γ assigned args formals) (Expr.checkArgs Γ' assigned args' formals)
  | [], [], _, _, _ => by
      rw [checkArgs, checkArgs]
      · exact .pure _
      · simp
      · simp
  | _ :: _, [], _, _, h => by cases h
  | [], _ :: _, _, _, h => by cases h
  | _ :: _, _ :: _, [], _, _ => by
      rw [checkArgs, checkArgs]
      · exact .pure _
      · simp
      · simp
  | arg :: args, arg' :: args', formal :: formals, hids, h => by
      obtain ⟨harg, hargs⟩ := List.cons.inj h
      rw [Expr.visitsAll, nodeIds_append, List.append_subset] at hids
      rw [checkArgs, checkArgs]
      refine .bind (arg.carries_typeOf hΓ arg' hids.1 harg) fun _ => ?_
      refine .bind hΓ.fits fun _ => ?_
      exact Expr.carries_checkArgs hΓ args args' formals hids.2 hargs

end

theorem Expr.carries_check (hΓ : Context.Within ids Γ Γ') {role : Role} {expected : Ty} {e e' : Expr}
    (hids : nodeIds e.visits ⊆ ids) (h : e'.mapNodes .withoutSpan = e.mapNodes .withoutSpan) :
    CarriesOver (e.check Γ assigned role expected) (e'.check Γ' assigned role expected) := by
  rw [check, check]
  exact .bind (e.carries_typeOf hΓ e' hids h) fun _ => hΓ.fits

mutual

/-- A statement that passes does so in a context that knows as much, and assigns the same variables. -/
theorem Stmt.carries_check (hΓ : Context.Within ids Γ Γ') : ∀ (s s' : Stmt) {assigned : List String},
    nodeIds s.visits ⊆ ids → s'.mapNodes .withoutSpan = s.mapNodes .withoutSpan →
    CarriesOver (s.check Γ assigned) (s'.check Γ' assigned)
  | .block node body, s', _, hids, h => by
      cases s' <;> simp only [mapNodes, reduceCtorEq, Stmt.block.injEq] at h
      rw [Stmt.visits, nodeIds_cons_of_some rfl, List.cons_subset] at hids
      rw [check, check]
      exact Stmt.carries_checkAll hΓ body _ hids.2 h.2
  | .ifElse node cond thenBranch elseBranch, s', _, hids, h => by
      cases s' <;> simp only [mapNodes, reduceCtorEq, Stmt.ifElse.injEq] at h
      obtain ⟨-, hcond, hthen, helse⟩ := h
      rw [Stmt.visits, nodeIds_cons_of_some rfl, nodeIds_append, nodeIds_append, List.cons_subset,
        List.append_subset, List.append_subset] at hids
      rw [check, check]
      refine .bind (Expr.carries_check hΓ hids.2.1.1 hcond) fun _ => ?_
      refine .bind (thenBranch.carries_check hΓ _ hids.2.1.2 hthen) fun _ => ?_
      exact .bind (elseBranch.carries_check hΓ _ hids.2.2 helse) fun _ => .pure _
  | .loop node cond body, s', _, hids, h => by
      cases s' <;> simp only [mapNodes, reduceCtorEq, Stmt.loop.injEq] at h
      obtain ⟨-, hcond, hbody⟩ := h
      rw [Stmt.visits, nodeIds_cons_of_some rfl, nodeIds_append, List.cons_subset, List.append_subset] at hids
      rw [check, check]
      refine .bind (Expr.carries_check hΓ hids.2.1 hcond) fun _ => ?_
      exact .bind (body.carries_check hΓ _ hids.2.2 hbody) fun _ => .pure _
  | .print node arg, s', _, hids, h => by
      cases s' <;> simp only [mapNodes, reduceCtorEq, Stmt.print.injEq] at h
      rw [Stmt.visits, nodeIds_cons_of_some rfl, List.cons_subset] at hids
      rw [check, check]
      exact .bind (Expr.carries_check hΓ hids.2 h.2) fun _ => .pure _
  | .assign node target value, s', _, hids, h => by
      cases s' <;> simp only [mapNodes, reduceCtorEq, Stmt.assign.injEq] at h
      obtain ⟨hnode, rfl, hvalue⟩ := h
      rw [Stmt.visits, nodeIds_cons_of_some rfl, List.cons_subset] at hids
      rw [check, check]
      refine .bind (value.carries_typeOf hΓ _ hids.2 hvalue) fun _ => ?_
      refine .bind (hΓ.resolve hids.1 (Node.id_of_withoutSpan hnode) _) fun _ => ?_
      exact .bind hΓ.fits fun _ => .pure _
  | .assignElement node target index value, s', _, hids, h => by
      cases s' <;> simp only [mapNodes, reduceCtorEq, Stmt.assignElement.injEq] at h
      obtain ⟨hnode, rfl, hindex, hvalue⟩ := h
      rw [Stmt.visits, nodeIds_cons_of_some rfl, nodeIds_append, List.cons_subset, List.append_subset] at hids
      rw [check, check]
      refine .bind (hΓ.readVariable hids.1 (Node.id_of_withoutSpan hnode) _) fun _ => ?_
      refine CarriesOver.passing id ?_
      refine .bind (Expr.carries_check hΓ hids.2.1 hindex) fun _ => ?_
      exact .bind (Expr.carries_check hΓ hids.2.2 hvalue) fun _ => .pure _

theorem Stmt.carries_checkAll (hΓ : Context.Within ids Γ Γ') : ∀ (ss ss' : List Stmt) {assigned : List String},
    nodeIds (Stmt.visitsAll ss) ⊆ ids → Stmt.mapNodesAll .withoutSpan ss' = Stmt.mapNodesAll .withoutSpan ss →
    CarriesOver (Stmt.checkAll Γ assigned ss) (Stmt.checkAll Γ' assigned ss')
  | [], [], _, _, _ => by
      rw [checkAll, checkAll]
      exact .pure _
  | _ :: _, [], _, _, h => by cases h
  | [], _ :: _, _, _, h => by cases h
  | s :: rest, s' :: rest', _, hids, h => by
      obtain ⟨hs, hrest⟩ := List.cons.inj h
      rw [Stmt.visitsAll, nodeIds_append, List.append_subset] at hids
      rw [checkAll, checkAll]
      refine .bind (s.carries_check hΓ s' hids.1 hs) fun _ => ?_
      exact Stmt.carries_checkAll hΓ rest rest' hids.2 hrest

end

theorem MethodDecl.carries_checkBody {C : String} {m m' : MethodDecl}
    (hΓ : Context.Within (nodeIds m.visits) ⟨a, some C⟩ ⟨a', some C⟩)
    (h : m'.mapNodes .withoutSpan = m.mapNodes .withoutSpan) :
    CarriesOver (m.checkBody a C) (m'.checkBody a' C) := by
  simp only [mapNodes, MethodDecl.mk.injEq] at h
  obtain ⟨-, htype, -, -, -, hbody, hresult⟩ := h
  have hids := m.nodeIds_subset
  rw [checkBody, checkBody, htype]
  refine .bind (Stmt.carries_checkAll hΓ m.body m'.body hids.1 hbody) fun _ => ?_
  exact Expr.carries_check hΓ hids.2 hresult

theorem Analysis.Within.checkBindings (ha : a.Within a') {repeated repeated' : String → TypingFault} :
    ∀ (vs vs' : List VarDecl) {seen : List String},
      vs'.map (VarDecl.mapNodes .withoutSpan) = vs.map (VarDecl.mapNodes .withoutSpan) →
      CarriesOver (Demitasse.checkBindings a.forest repeated seen vs)
        (Demitasse.checkBindings a'.forest repeated' seen vs')
  | [], [], _, _ => .pure _
  | v :: vs, v' :: vs', seen, h => by
      obtain ⟨hv, hvs⟩ := List.cons.inj h
      simp only [VarDecl.mapNodes, VarDecl.mk.injEq] at hv
      obtain ⟨-, hty, hname⟩ := hv
      rw [Demitasse.checkBindings, Demitasse.checkBindings, hty, hname]
      refine .bind ha.checkType fun _ => ?_
      exact CarriesOver.passing id (ha.checkBindings vs vs' hvs)

theorem ClassDecl.carries_checkFields (ha : a.Within a') {c c' : ClassDecl} {inherited : List String} :
    ∀ (fs fs' : List VarDecl) {seen : List String},
      fs'.map (VarDecl.mapNodes .withoutSpan) = fs.map (VarDecl.mapNodes .withoutSpan) →
      CarriesOver (c.checkFields a.forest inherited seen fs) (c'.checkFields a'.forest inherited seen fs')
  | [], [], _, _ => .pure _
  | f :: fs, f' :: fs', seen, h => by
      obtain ⟨hf, hfs⟩ := List.cons.inj h
      simp only [VarDecl.mapNodes, VarDecl.mk.injEq] at hf
      obtain ⟨-, hty, hname⟩ := hf
      rw [checkFields, checkFields, hty, hname]
      refine .bind ha.checkType fun _ => ?_
      refine CarriesOver.passing id ?_
      exact CarriesOver.passing id (carries_checkFields ha fs fs' hfs)

theorem VarDecl.types_of_withoutSpan {vs vs' : List VarDecl}
    (h : vs'.map (VarDecl.mapNodes .withoutSpan) = vs.map (VarDecl.mapNodes .withoutSpan)) :
    vs'.map (·.ty) = vs.map (·.ty) := by
  have hty := congrArg (List.map (·.ty)) h
  rw [List.map_map, List.map_map] at hty
  exact hty

/-- A class whose superclass has the same methods in both analyses. -/
theorem MethodDecl.carries_checkDecl (ha : a.Within a') {c c' : ClassDecl} {m m' : MethodDecl}
    (hsuper : c'.superName = c.superName)
    (hmethods : ∀ S, c.superName = some S → ∀ name, a'.scopes.classMethod? S name = a.scopes.classMethod? S name)
    (h : m'.mapNodes .withoutSpan = m.mapNodes .withoutSpan) :
    CarriesOver (m.checkDecl a c) (m'.checkDecl a' c') := by
  simp only [mapNodes, MethodDecl.mk.injEq] at h
  obtain ⟨-, htype, hname, hformals, hlocals, -, -⟩ := h
  rw [checkDecl, checkDecl, htype]
  refine .bind ha.checkType fun _ => ?_
  refine .bind (ha.checkBindings _ _ hformals) fun _ => ?_
  refine .bind (ha.checkBindings _ _ hlocals) fun _ => ?_
  have hoverridden : (c'.superName.bind fun S => a'.scopes.classMethod? S m'.name) =
      c.superName.bind fun S => a.scopes.classMethod? S m.name := by
    rw [hsuper, hname]
    exact Option.bind_congr fun S hS => hmethods S hS _
  rw [checkOverride, checkOverride, hoverridden, htype, VarDecl.types_of_withoutSpan hformals]
  split
  · exact .pure _
  · refine CarriesOver.passing id ?_
    exact CarriesOver.passing (fun hnot hret => hnot (ha.assignable hret)) (.pure _)

theorem ClassDecl.carries_checkMethods (ha : a.Within a') {c c' : ClassDecl} (hsuper : c'.superName = c.superName)
    (hmethods : ∀ S, c.superName = some S → ∀ name, a'.scopes.classMethod? S name = a.scopes.classMethod? S name) :
    ∀ (ms ms' : List MethodDecl) {seen : List String},
      ms'.map (MethodDecl.mapNodes .withoutSpan) = ms.map (MethodDecl.mapNodes .withoutSpan) →
      CarriesOver (c.checkMethods a seen ms) (c'.checkMethods a' seen ms')
  | [], [], _, _ => .pure _
  | m :: ms, m' :: ms', seen, h => by
      obtain ⟨hm, hms⟩ := List.cons.inj h
      have hname : m'.name = m.name := (MethodDecl.mk.inj hm).2.2.1
      rw [checkMethods, checkMethods, hname]
      refine CarriesOver.passing id ?_
      refine .bind (MethodDecl.carries_checkDecl ha hsuper hmethods hm) fun _ => ?_
      exact carries_checkMethods ha hsuper hmethods ms ms' hms

/-- A class passes in another analysis if it inherits the same fields and methods there. -/
theorem ClassDecl.carries_checkDecl (ha : a.Within a') {c c' : ClassDecl}
    (hinherited : ((a'.forest.ancestors c.name).flatMap fun d => d.fields.map (·.name)) =
      (a.forest.ancestors c.name).flatMap fun d => d.fields.map (·.name))
    (hmethods : ∀ S, c.superName = some S → ∀ name, a'.scopes.classMethod? S name = a.scopes.classMethod? S name)
    (h : c'.mapNodes .withoutSpan = c.mapNodes .withoutSpan) :
    CarriesOver (c.checkDecl a) (c'.checkDecl a') := by
  simp only [mapNodes, ClassDecl.mk.injEq] at h
  obtain ⟨-, hname, hsuper, hfields, hms⟩ := h
  rw [checkDecl, checkDecl, hname, hinherited]
  refine .bind (carries_checkFields ha _ _ hfields) fun _ => ?_
  exact carries_checkMethods ha hsuper hmethods _ _ hms

/-! ### Code -/

namespace Lower

variable {α β : Type}

/-- The second lowering succeeds wherever the first does, with the same result and the same names. -/
def Carries (x y : Lower α) : Prop :=
  ∀ names, CarriesOver (x.run names) (y.run names)

namespace Carries

theorem refl (x : Lower α) : Carries x x :=
  fun _ => .refl _

theorem bind {x y : Lower α} {f g : α → Lower β} (hx : Carries x y) (hf : ∀ a, Carries (f a) (g a)) :
    Carries (x >>= f) (y >>= g) := by
  intro names r h
  obtain ⟨a, names', hrun, hr⟩ := run_bind_eq_ok.mp h
  exact run_bind_eq_ok.mpr ⟨a, names', hx names _ hrun, hf a names' r hr⟩

theorem run' {x y : Lower α} (h : Carries x y) (names : Names) : CarriesOver (x.run' names) (y.run' names) := by
  intro r hr
  obtain ⟨names', hrun⟩ := run'_eq_ok_iff.mp hr
  exact run'_eq_ok_iff.mpr ⟨names', h names _ hrun⟩

end Carries

theorem carries_fieldPtr (hΓ : Context.Within ids Γ Γ') (name : String) (ty : Ty) :
    Carries (fieldPtr Γ name ty) (fieldPtr Γ' name ty) := by
  rw [fieldPtr, fieldPtr, hΓ.className]
  cases Γ.className with
  | none => exact .refl _
  | some C =>
      dsimp only
      cases hl : Γ.analysis.catalog.layout? C with
      | none =>
          intro _ _ h
          cases h
      | some l =>
          rw [hΓ.analysis.layout hl]
          exact .refl _

theorem carries_variablePtr (hΓ : Context.Within ids Γ Γ') (hid : node.id ∈ ids) (hnode : node'.id = node.id)
    (name : String) : Carries (variablePtr Γ name node.id) (variablePtr Γ' name node'.id) := by
  have hplace : place Γ'.analysis.scopes name node'.id = place Γ.analysis.scopes name node.id := by
    funext names
    rw [place, place, Names.place, Names.place, hnode, hΓ.resolve? node.id hid]
  rw [variablePtr, variablePtr, hplace]
  refine .bind (.refl _) fun found => ?_
  cases found with
  | stack slot ty => exact .refl _
  | field name ty => exact .bind (carries_fieldPtr hΓ name ty) fun _ => .refl _

theorem carries_allocObject (hΓ : Context.Within ids Γ Γ') (C : String) :
    Carries (allocObject Γ C) (allocObject Γ' C) := by
  rw [allocObject, allocObject]
  cases hl : Γ.analysis.catalog.layout? C with
  | none =>
      intro _ _ h
      cases h
  | some l =>
      rw [hΓ.analysis.layout hl]
      exact .refl _

theorem carries_dispatch (hΓ : Context.Within ids Γ Γ') (owner : Ty) (method : String) :
    Carries (dispatch Γ owner method) (dispatch Γ' owner method) := by
  rw [dispatch, dispatch]
  cases owner.className? with
  | none => exact .refl _
  | some C =>
      dsimp only
      cases hl : Γ.analysis.catalog.layout? C with
      | none =>
          intro _ _ h
          cases h
      | some l =>
          rw [hΓ.analysis.layout hl]
          exact .refl _

end Lower

open Lower

mutual

/-- An expression has the same code in a context that knows as much, whatever its spans. -/
theorem Expr.carries_lower (hΓ : Context.Within ids Γ Γ') : ∀ (e e' : Expr), nodeIds e.visits ⊆ ids →
    e'.mapNodes .withoutSpan = e.mapNodes .withoutSpan → Carries (e.lower Γ) (e'.lower Γ')
  | .binary node op left right, e', hids, h => by
      cases e' <;> simp only [mapNodes, reduceCtorEq, Expr.binary.injEq] at h
      obtain ⟨-, rfl, hleft, hright⟩ := h
      rename_i node' op left' right'
      rw [Expr.visits, nodeIds_cons_of_some rfl, nodeIds_append, List.cons_subset, List.append_subset] at hids
      have hl := left.carries_lower hΓ left' hids.2.1 hleft
      have hr := right.carries_lower hΓ right' hids.2.2 hright
      by_cases hop : op = .and
      · rw [hop, Expr.lower, Expr.lower]
        refine .bind hl fun _ => ?_
        refine .bind (.refl _) fun _ => ?_
        refine .bind (.refl _) fun _ => ?_
        refine .bind (.refl _) fun _ => ?_
        refine .bind (.refl _) fun _ => ?_
        exact .bind hr fun _ => .refl _
      · rw [Expr.lower, Expr.lower]
        · exact .bind hl fun _ => .bind hr fun _ => .refl _
        · exact hop
        · exact hop
  | .element node array index, e', hids, h => by
      cases e' <;> simp only [mapNodes, reduceCtorEq, Expr.element.injEq] at h
      obtain ⟨-, harray, hindex⟩ := h
      rw [Expr.visits, nodeIds_cons_of_some rfl, nodeIds_append, List.cons_subset, List.append_subset] at hids
      rw [Expr.lower, Expr.lower]
      refine .bind (array.carries_lower hΓ _ hids.2.1 harray) fun _ => ?_
      exact .bind (index.carries_lower hΓ _ hids.2.2 hindex) fun _ => .refl _
  | .length node array, e', hids, h => by
      cases e' <;> simp only [mapNodes, reduceCtorEq, Expr.length.injEq] at h
      rw [Expr.visits, nodeIds_cons_of_some rfl, List.cons_subset] at hids
      rw [Expr.lower, Expr.lower]
      exact .bind (array.carries_lower hΓ _ hids.2 h.2) fun _ => .refl _
  | .call node owner method args, e', hids, h => by
      cases e' <;> simp only [mapNodes, reduceCtorEq, Expr.call.injEq] at h
      obtain ⟨-, howner, rfl, hargs⟩ := h
      rw [Expr.visits, nodeIds_cons_of_some rfl, nodeIds_append, List.cons_subset, List.append_subset] at hids
      rw [Expr.lower, Expr.lower]
      refine .bind (owner.carries_lower hΓ _ hids.2.1 howner) fun _ => ?_
      refine .bind (carries_dispatch hΓ _ _) fun _ => ?_
      refine .bind (.refl _) fun _ => ?_
      exact .bind (Expr.carries_lowerArgs hΓ args _ _ hids.2.2 hargs) fun _ => .refl _
  | .int node value, e', _, h => by
      cases e' <;> simp only [mapNodes, reduceCtorEq, Expr.int.injEq] at h
      rw [Expr.lower, Expr.lower, h.2]
      exact .refl _
  | .bool node value, e', _, h => by
      cases e' <;> simp only [mapNodes, reduceCtorEq, Expr.bool.injEq] at h
      rw [Expr.lower, Expr.lower, h.2]
      exact .refl _
  | .var node name, e', hids, h => by
      cases e' <;> simp only [mapNodes, reduceCtorEq, Expr.var.injEq] at h
      obtain ⟨hnode, rfl⟩ := h
      rw [Expr.lower, Expr.lower]
      exact .bind (carries_variablePtr hΓ (hids List.mem_cons_self) (Node.id_of_withoutSpan hnode) _) fun _ => .refl _
  | .this node, e', _, h => by
      cases e' <;> simp only [mapNodes, reduceCtorEq] at h
      rw [Expr.lower, Expr.lower, hΓ.className]
      exact .refl _
  | .newArray node size, e', hids, h => by
      cases e' <;> simp only [mapNodes, reduceCtorEq, Expr.newArray.injEq] at h
      rw [Expr.visits, nodeIds_cons_of_some rfl, List.cons_subset] at hids
      rw [Expr.lower, Expr.lower]
      exact .bind (size.carries_lower hΓ _ hids.2 h.2) fun _ => .refl _
  | .newObject node className, e', _, h => by
      cases e' <;> simp only [mapNodes, reduceCtorEq, Expr.newObject.injEq] at h
      obtain ⟨-, rfl⟩ := h
      rw [Expr.lower, Expr.lower]
      exact carries_allocObject hΓ _
  | .not node operand, e', hids, h => by
      cases e' <;> simp only [mapNodes, reduceCtorEq, Expr.not.injEq] at h
      rw [Expr.visits, nodeIds_cons_of_some rfl, List.cons_subset] at hids
      rw [Expr.lower, Expr.lower]
      exact .bind (operand.carries_lower hΓ _ hids.2 h.2) fun _ => .refl _

theorem Expr.carries_lowerArgs (hΓ : Context.Within ids Γ Γ') : ∀ (args args' : List Expr) (tys : List IrTy),
    nodeIds (Expr.visitsAll args) ⊆ ids →
    Expr.mapNodesAll .withoutSpan args' = Expr.mapNodesAll .withoutSpan args →
    Carries (Expr.lowerArgs Γ args tys) (Expr.lowerArgs Γ' args' tys)
  | [], [], _, _, _ => by
      rw [Expr.lowerArgs, Expr.lowerArgs]
      · exact .refl _
      · simp
      · simp
  | _ :: _, [], _, _, h => by cases h
  | [], _ :: _, _, _, h => by cases h
  | _ :: _, _ :: _, [], _, _ => by
      rw [Expr.lowerArgs, Expr.lowerArgs]
      · exact .refl _
      · simp
      · simp
  | arg :: args, arg' :: args', ty :: tys, hids, h => by
      obtain ⟨harg, hargs⟩ := List.cons.inj h
      rw [Expr.visitsAll, nodeIds_append, List.append_subset] at hids
      rw [Expr.lowerArgs, Expr.lowerArgs]
      refine .bind (arg.carries_lower hΓ arg' hids.1 harg) fun _ => ?_
      exact .bind (Expr.carries_lowerArgs hΓ args args' tys hids.2 hargs) fun _ => .refl _

end

mutual

/-- A statement has the same code in a context that knows as much, whatever its spans. -/
theorem Stmt.carries_lower (hΓ : Context.Within ids Γ Γ') : ∀ (s s' : Stmt), nodeIds s.visits ⊆ ids →
    s'.mapNodes .withoutSpan = s.mapNodes .withoutSpan → Carries (s.lower Γ) (s'.lower Γ')
  | .block node body, s', hids, h => by
      cases s' <;> simp only [mapNodes, reduceCtorEq, Stmt.block.injEq] at h
      rw [Stmt.visits, nodeIds_cons_of_some rfl, List.cons_subset] at hids
      rw [Stmt.lower, Stmt.lower]
      exact Stmt.carries_lowerAll hΓ body _ hids.2 h.2
  | .ifElse node cond thenBranch elseBranch, s', hids, h => by
      cases s' <;> simp only [mapNodes, reduceCtorEq, Stmt.ifElse.injEq] at h
      obtain ⟨-, hcond, hthen, helse⟩ := h
      rw [Stmt.visits, nodeIds_cons_of_some rfl, nodeIds_append, nodeIds_append, List.cons_subset,
        List.append_subset, List.append_subset] at hids
      rw [Stmt.lower, Stmt.lower]
      refine .bind (cond.carries_lower hΓ _ hids.2.1.1 hcond) fun _ => ?_
      refine .bind (.refl _) fun _ => ?_
      refine .bind (.refl _) fun _ => ?_
      refine .bind (.refl _) fun _ => ?_
      refine .bind (thenBranch.carries_lower hΓ _ hids.2.1.2 hthen) fun _ => ?_
      exact .bind (elseBranch.carries_lower hΓ _ hids.2.2 helse) fun _ => .refl _
  | .loop node cond body, s', hids, h => by
      cases s' <;> simp only [mapNodes, reduceCtorEq, Stmt.loop.injEq] at h
      obtain ⟨-, hcond, hbody⟩ := h
      rw [Stmt.visits, nodeIds_cons_of_some rfl, nodeIds_append, List.cons_subset, List.append_subset] at hids
      rw [Stmt.lower, Stmt.lower]
      refine .bind (.refl _) fun _ => ?_
      refine .bind (.refl _) fun _ => ?_
      refine .bind (.refl _) fun _ => ?_
      refine .bind (cond.carries_lower hΓ _ hids.2.1 hcond) fun _ => ?_
      exact .bind (body.carries_lower hΓ _ hids.2.2 hbody) fun _ => .refl _
  | .print node arg, s', hids, h => by
      cases s' <;> simp only [mapNodes, reduceCtorEq, Stmt.print.injEq] at h
      rw [Stmt.visits, nodeIds_cons_of_some rfl, List.cons_subset] at hids
      rw [Stmt.lower, Stmt.lower]
      exact .bind (arg.carries_lower hΓ _ hids.2 h.2) fun _ => .refl _
  | .assign node target value, s', hids, h => by
      cases s' <;> simp only [mapNodes, reduceCtorEq, Stmt.assign.injEq] at h
      obtain ⟨hnode, rfl, hvalue⟩ := h
      rw [Stmt.visits, nodeIds_cons_of_some rfl, List.cons_subset] at hids
      rw [Stmt.lower, Stmt.lower]
      refine .bind (value.carries_lower hΓ _ hids.2 hvalue) fun _ => ?_
      exact .bind (carries_variablePtr hΓ hids.1 (Node.id_of_withoutSpan hnode) _) fun _ => .refl _
  | .assignElement node target index value, s', hids, h => by
      cases s' <;> simp only [mapNodes, reduceCtorEq, Stmt.assignElement.injEq] at h
      obtain ⟨hnode, rfl, hindex, hvalue⟩ := h
      rw [Stmt.visits, nodeIds_cons_of_some rfl, nodeIds_append, List.cons_subset, List.append_subset] at hids
      rw [Stmt.lower, Stmt.lower]
      refine .bind (carries_variablePtr hΓ hids.1 (Node.id_of_withoutSpan hnode) _) fun _ => ?_
      refine .bind (.refl _) fun _ => ?_
      refine .bind (index.carries_lower hΓ _ hids.2.1 hindex) fun _ => ?_
      exact .bind (value.carries_lower hΓ _ hids.2.2 hvalue) fun _ => .refl _

theorem Stmt.carries_lowerAll (hΓ : Context.Within ids Γ Γ') : ∀ (ss ss' : List Stmt),
    nodeIds (Stmt.visitsAll ss) ⊆ ids → Stmt.mapNodesAll .withoutSpan ss' = Stmt.mapNodesAll .withoutSpan ss →
    Carries (Stmt.lowerAll Γ ss) (Stmt.lowerAll Γ' ss')
  | [], [], _, _ => by
      rw [Stmt.lowerAll, Stmt.lowerAll]
      exact .refl _
  | _ :: _, [], _, h => by cases h
  | [], _ :: _, _, h => by cases h
  | s :: rest, s' :: rest', hids, h => by
      obtain ⟨hs, hrest⟩ := List.cons.inj h
      rw [Stmt.visitsAll, nodeIds_append, List.append_subset] at hids
      rw [Stmt.lowerAll, Stmt.lowerAll]
      refine .bind (s.carries_lower hΓ s' hids.1 hs) fun _ => ?_
      exact .bind (Stmt.carries_lowerAll hΓ rest rest' hids.2 hrest) fun _ => .refl _

end

theorem lowerFormals_withoutSpan (vs : List VarDecl) :
    lowerFormals (vs.map (VarDecl.mapNodes .withoutSpan)) = lowerFormals vs := by
  induction vs with
  | nil => rfl
  | cons v vs ih =>
      rw [List.map_cons, lowerFormals, lowerFormals, ih]
      rfl

theorem lowerLocals_withoutSpan (vs : List VarDecl) :
    lowerLocals (vs.map (VarDecl.mapNodes .withoutSpan)) = lowerLocals vs := by
  induction vs with
  | nil => rfl
  | cons v vs ih =>
      rw [List.map_cons, lowerLocals, lowerLocals, ih]
      rfl

theorem MethodDecl.signature_withoutSpan (m : MethodDecl) (C : String) :
    (m.mapNodes .withoutSpan).signature C = m.signature C := by
  rw [signature, signature, mapNodes, List.map_map]
  rfl

theorem MethodDecl.carries_lower {C : String} {m m' : MethodDecl}
    (hΓ : Context.Within (nodeIds m.visits) ⟨a, some C⟩ ⟨a', some C⟩)
    (h : m'.mapNodes .withoutSpan = m.mapNodes .withoutSpan) : CarriesOver (m.lower a C) (m'.lower a' C) := by
  have hsignature : m'.signature C = m.signature C := by
    rw [← m'.signature_withoutSpan, h, m.signature_withoutSpan]
  simp only [mapNodes, MethodDecl.mk.injEq] at h
  obtain ⟨-, htype, -, hformals, hlocals, hbody, hresult⟩ := h
  have hids := m.nodeIds_subset
  have hcode : Carries (m.lowerBody ⟨a, some C⟩) (m'.lowerBody ⟨a', some C⟩) := by
    rw [lowerBody, lowerBody, htype, ← lowerFormals_withoutSpan m'.formals, hformals, lowerFormals_withoutSpan,
      ← lowerLocals_withoutSpan m'.locals, hlocals, lowerLocals_withoutSpan]
    refine .bind (.refl _) fun _ => ?_
    refine .bind (.refl _) fun _ => ?_
    refine .bind (Stmt.carries_lowerAll hΓ m.body m'.body hids.1 hbody) fun _ => ?_
    exact .bind (m.result.carries_lower hΓ m'.result hids.2 hresult) fun _ => .refl _
  rw [MethodDecl.lower, MethodDecl.lower, hsignature]
  exact .bind (hcode.run' _) fun _ => .pure _

theorem MainClass.carries_lower {m m' : MainClass} (hΓ : Context.Within (nodeIds m.visits) ⟨a, none⟩ ⟨a', none⟩)
    (h : m'.mapNodes .withoutSpan = m.mapNodes .withoutSpan) : CarriesOver (m.lower a) (m'.lower a') := by
  have hbody : m'.body.mapNodes .withoutSpan = m.body.mapNodes .withoutSpan := (MainClass.mk.inj h).2.2.2
  have hids : nodeIds m.body.visits ⊆ nodeIds m.visits := fun id hid => List.mem_cons_of_mem _ hid
  rw [MainClass.lower, MainClass.lower]
  exact .bind ((m.body.carries_lower hΓ m'.body hids hbody).run' _) fun _ => .pure _

end

end Demitasse
