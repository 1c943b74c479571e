import Demitasse.Proofs.Overrides
import Demitasse.Proofs.Visibility

/-!
Principal types. The rules of the language give an expression many types, because a type may be given up for one that
it is assignable to, at every part of an expression. So a call may look its method up at an ancestor of the class of its
owner, where the method has another signature than the one that is found first. If the declarations of a program are
sound this makes no difference: the rules give an expression the types that its computed type is assignable to.
-/

namespace Demitasse

/-- An expression of a routine may be given a type, where `assigned` are the local variables that have a value. -/
inductive Program.HasType (p : Program) (routine : Routine) (assigned : List String) : Expr → Ty → Prop
  | and {node : Node} {left right : Expr} :
      p.HasType routine assigned left .boolean → p.HasType routine assigned right .boolean →
      p.HasType routine assigned (.binary node .and left right) .boolean
  | less {node : Node} {left right : Expr} :
      p.HasType routine assigned left .int → p.HasType routine assigned right .int →
      p.HasType routine assigned (.binary node .less left right) .boolean
  | arith {node : Node} {op : BinOp} {left right : Expr} :
      op = .add ∨ op = .sub ∨ op = .mul →
      p.HasType routine assigned left .int → p.HasType routine assigned right .int →
      p.HasType routine assigned (.binary node op left right) .int
  | element {node : Node} {array index : Expr} :
      p.HasType routine assigned array .intArray → p.HasType routine assigned index .int →
      p.HasType routine assigned (.element node array index) .int
  | length {node : Node} {array : Expr} :
      p.HasType routine assigned array .intArray → p.HasType routine assigned (.length node array) .int
  | call {node : Node} {owner : Expr} {method : String} {args : List Expr} {c d : ClassDecl} {m : MethodDecl} :
      p.HasType routine assigned owner (.object c.name) →
      p.forest.Nearest (·.methods) (·.name) method c d m → args.length = m.formals.length →
      (∀ x ∈ args.zip (m.formals.map (·.ty)), p.HasType routine assigned x.1 x.2) →
      p.HasType routine assigned (.call node owner method args) m.returnType
  | int {node : Node} {value : Nat} : p.HasType routine assigned (.int node value) .int
  | bool {node : Node} {value : Bool} : p.HasType routine assigned (.bool node value) .boolean
  | var {node : Node} {name : String} {b : VarBinding} :
      p.Declares name routine b → (b.storage = .local → name ∈ assigned) →
      p.HasType routine assigned (.var node name) b.ty
  | this {node : Node} {C : String} :
      routine.className? = some C → p.HasType routine assigned (.this node) (.object C)
  | newArray {node : Node} {size : Expr} :
      p.HasType routine assigned size .int → p.HasType routine assigned (.newArray node size) .intArray
  | newObject {node : Node} {C : String} :
      C ∈ p.classes.map (·.name) → p.HasType routine assigned (.newObject node C) (.object C)
  | not {node : Node} {operand : Expr} :
      p.HasType routine assigned operand .boolean → p.HasType routine assigned (.not node operand) .boolean
  | subsume {e : Expr} {s t : Ty} :
      p.HasType routine assigned e s → p.forest.assignable s t = true → p.HasType routine assigned e t

theorem Expr.sizeOf_lt_of_child {e c : Expr} (hc : c ∈ e.children) : sizeOf c < sizeOf e := by
  cases e with
  | binary node op left right =>
      rw [Expr.binary.sizeOf_spec]
      rcases List.mem_pair.mp hc with rfl | rfl <;> omega
  | element node array index =>
      rw [Expr.element.sizeOf_spec]
      rcases List.mem_pair.mp hc with rfl | rfl <;> omega
  | call node owner method args =>
      rw [Expr.call.sizeOf_spec]
      rcases List.mem_cons.mp hc with rfl | hc
      · omega
      · have hlt := List.sizeOf_lt_of_mem hc
        omega
  | length node array | newArray node array | not node array =>
      obtain rfl := List.mem_singleton.mp hc
      simp +arith
  | _ => cases hc

/-- What holds of an expression if it holds of all that it is made of, holds of every expression. -/
@[elab_as_elim]
theorem Expr.induction_children {P : Expr → Prop} (step : ∀ e : Expr, (∀ c ∈ e.children, P c) → P e) (e : Expr) :
    P e :=
  step e fun c _ => Expr.induction_children step c
termination_by sizeOf e
decreasing_by exact Expr.sizeOf_lt_of_child ‹_›

theorem Expr.nodeIds_subset_of_child {d c : Expr} {ids : List NodeId} (hd : nodeIds d.visits ⊆ ids)
    (hc : c ∈ d.children) : nodeIds c.visits ⊆ ids :=
  List.Subset.trans (nodeIds_subset (Expr.visits_subset_of_child c hc)) hd

section
variable {Γ : Context} {assigned : List String} {node : Node} {expected : Ty}

/-- A part that fits is not what an expression fails at. -/
theorem Expr.Fits.bind_eq {e : Expr} (h : e.Fits Γ assigned expected) {α : Type} (role : Role) (span : Span)
    (rest : Except (Located TypingFault) α) :
    (e.typeOf Γ assigned >>= fun ty => Γ.fits role expected span ty >>= fun _ => rest) = rest := by
  obtain ⟨ty, hty, hfits⟩ := h
  rw [hty]
  change (Γ.fits role expected span ty >>= fun _ => rest) = rest
  rw [Context.fits_eq_ok.mpr hfits]
  rfl

theorem Expr.checkArgs_eq_ok_iff (args : List Expr) : ∀ formals : List Ty,
    Expr.checkArgs Γ assigned args formals = .ok () ↔ ∀ x ∈ args.zip formals, x.1.Fits Γ assigned x.2 := by
  induction args with
  | nil => simp [Expr.checkArgs, pure, Except.pure]
  | cons arg args ih =>
      intro formals
      cases formals with
      | nil => simp [Expr.checkArgs, pure, Except.pure]
      | cons formal formals =>
          rw [List.zip_cons_cons, List.forall_mem_cons, ← ih]
          refine ⟨Expr.checkArgs_cons_eq_ok, ?_⟩
          rintro ⟨harg, hargs⟩
          rw [Expr.checkArgs, harg.bind_eq]
          exact hargs

theorem Expr.typeOf_binary {op : BinOp} {left right : Expr} (hleft : left.Fits Γ assigned op.operandTy)
    (hright : right.Fits Γ assigned op.operandTy) :
    (Expr.binary node op left right).typeOf Γ assigned = .ok op.resultTy := by
  rw [Expr.typeOf, hleft.bind_eq, hright.bind_eq]
  rfl

theorem Expr.typeOf_call {owner : Expr} {method : String} {args : List Expr} {C : String} {signature : MethodSig}
    (howner : owner.typeOf Γ assigned = .ok (.object C))
    (hmethod : Γ.analysis.scopes.classMethod? C method = some signature)
    (hcount : signature.formalTypes.length = args.length)
    (hargs : ∀ x ∈ args.zip signature.formalTypes, x.1.Fits Γ assigned x.2) :
    (Expr.call node owner method args).typeOf Γ assigned = .ok signature.ret := by
  rw [MethodSig.formalTypes, List.length_map] at hcount
  rw [Expr.typeOf]
  refine bind_eq_ok.mpr ⟨_, howner, bind_eq_ok.mpr ⟨signature, ?_, bind_eq_ok.mpr ⟨(), ?_, rfl⟩⟩⟩
  · exact Context.callee_eq_ok.mpr ⟨C, rfl, hmethod, hcount⟩
  · exact (Expr.checkArgs_eq_ok_iff _ _).mpr hargs

end

theorem Forest.assignable_object_iff {F : Forest} {t : Ty} {C : String} :
    F.assignable t (.object C) = true ↔ ∃ D, t = .object D ∧ F.isSubclass D C = true := by
  cases t <;> simp [Forest.assignable]

section
variable {a : Analysis} {p : Program} {routine : Routine} {assigned : List String}

/-- The type of a declared variable is known. -/
theorem Program.Declares.assignable_self (hdecls : ∀ c ∈ p.classes, c.checkDecl a = .ok ()) (hroutine : p.Has routine)
    {name : String} {b : VarBinding} (hb : p.Declares name routine b) : a.forest.assignable b.ty b.ty = true := by
  cases hb with
  | @ofFormal c m v hv =>
      have hm := ClassDecl.checkDecl_of_mem (hdecls c hroutine.1) hroutine.2
      exact Forest.assignable_self (MethodDecl.checkType_of_checkDecl hm v (List.mem_append_left _ hv.mem))
  | @ofLocal c m v _ hv =>
      have hm := ClassDecl.checkDecl_of_mem (hdecls c hroutine.1) hroutine.2
      exact Forest.assignable_self (MethodDecl.checkType_of_checkDecl hm v (List.mem_append_right _ hv.mem))
  | @ofField c d m f _ _ hnearest =>
      obtain ⟨nearer, further, hascent, _, hf⟩ := hnearest
      have hd : d ∈ p.classes := hascent.subset (List.mem_append_right _ List.mem_cons_self)
      have hfields := (ClassDecl.checkFields_eq_ok _).mp (ClassDecl.checkDecl_eq_ok.mp (hdecls d hd)).1
      exact Forest.assignable_self (hfields.2 f hf.mem).1

/-- The method that a class has under a name is the first one of the nearest class. -/
theorem Analysis.Describes.classMethod?_eq_some_iff (h : a.Describes p) {C name : String} {signature : MethodSig} :
    a.scopes.classMethod? C name = some signature ↔
      ∃ c d m, c.name = C ∧ p.forest.Nearest (·.methods) (·.name) name c d m ∧ m.signature d.name = signature := by
  rw [h.classMethod?]
  constructor
  · intro hm
    have hne : a.forest.lineage C ≠ [] := by
      intro hnil
      rw [hnil] at hm
      cases hm
    obtain ⟨c, ancestors, hL⟩ := List.exists_cons_of_ne_nil hne
    obtain rfl := Forest.name_of_lineage hL
    obtain ⟨d, m, hnearest, hsignature⟩ := (h.findSome?_lineage_eq_some_iff (h.lineage_eq_cons hL).1).mp hm
    exact ⟨c, d, m, rfl, hnearest, hsignature⟩
  · rintro ⟨c, d, m, rfl, ⟨nearer, further, hascent, hfirst⟩, hsignature⟩
    have hc : c ∈ p.classes := (h.ascent_iff.mp hascent).1
    exact (h.findSome?_lineage_eq_some_iff hc).mpr ⟨d, m, ⟨nearer, further, hascent, hfirst⟩, hsignature⟩

/-- The rules give an expression the type that is computed for it. -/
theorem Program.hasType_of_typeOf (h : a.Describes p) (hids : (nodeIds p.visits).Nodup) (hroutine : p.Has routine)
    (e : Expr) : nodeIds e.visits ⊆ p.nodesIn routine →
      ∀ t, e.typeOf ⟨a, routine.className?⟩ assigned = .ok t → p.HasType routine assigned e t := by
  refine Expr.induction_children ?_ e
  intro e ih hin t ht
  have hfits : ∀ c ∈ e.children, ∀ t, c.Fits ⟨a, routine.className?⟩ assigned t → p.HasType routine assigned c t := by
    rintro c hc t ⟨s, hs, hst⟩
    exact .subsume (ih c hc (Expr.nodeIds_subset_of_child hin hc) s hs) (h.forest_eq ▸ hst)
  have hrule := Expr.rule_of_typeOf ht
  cases e with
  | binary node op left right =>
      obtain ⟨hleft, hright, rfl⟩ := hrule
      replace hleft := hfits left List.mem_cons_self _ hleft
      replace hright := hfits right (List.mem_cons_of_mem _ List.mem_cons_self) _ hright
      cases op with
      | and => exact .and hleft hright
      | less => exact .less hleft hright
      | add => exact .arith (.inl rfl) hleft hright
      | sub => exact .arith (.inr (.inl rfl)) hleft hright
      | mul => exact .arith (.inr (.inr rfl)) hleft hright
  | element node array index =>
      obtain ⟨harray, hindex, rfl⟩ := hrule
      exact .element (hfits array List.mem_cons_self _ harray)
        (hfits index (List.mem_cons_of_mem _ List.mem_cons_self) _ hindex)
  | length node array =>
      obtain ⟨harray, rfl⟩ := hrule
      exact .length (hfits array List.mem_cons_self _ harray)
  | call node owner method args =>
      obtain ⟨C, signature, howner, hmethod, hcount, hargs, rfl⟩ := hrule
      obtain ⟨c, d, m, rfl, hnearest, rfl⟩ := h.classMethod?_eq_some_iff.mp hmethod
      rw [MethodDecl.formalTypes_signature] at hcount hargs
      refine .call (ih owner List.mem_cons_self (Expr.nodeIds_subset_of_child hin List.mem_cons_self) _ howner)
        hnearest ?_ ?_
      · rw [← hcount, List.length_map]
      · intro x hx
        exact hfits x.1 (List.mem_cons_of_mem _ (List.of_mem_zip hx).1) _
          ((Expr.checkArgs_eq_ok_iff _ _).mp hargs x hx)
  | int node value =>
      obtain rfl := hrule
      exact .int
  | bool node value =>
      obtain rfl := hrule
      exact .bool
  | var node name =>
      rw [Expr.typeOf] at ht
      obtain ⟨b, hb, hassigned, rfl⟩ := Context.readVariable_eq_ok.mp ht
      have hid : node.id ∈ p.nodesIn routine := hin (Expr.id_mem_nodeIds (.var node name))
      refine .var ((h.resolve?_eq_some_iff hids hroutine hid).mp hb) fun hlocal => ?_
      exact Decidable.not_not.mp fun hunassigned => hassigned ⟨hlocal, hunassigned⟩
  | this node =>
      obtain ⟨C, hC, rfl⟩ := hrule
      exact .this hC
  | newArray node size =>
      obtain ⟨hsize, rfl⟩ := hrule
      exact .newArray (hfits size List.mem_cons_self _ hsize)
  | newObject node C =>
      obtain ⟨hC, rfl⟩ := hrule
      obtain ⟨c, hc, rfl⟩ := Forest.contains_iff_exists.mp hC
      rw [h.forest] at hc
      exact .newObject (List.mem_map_of_mem hc)
  | not node operand =>
      obtain ⟨hoperand, rfl⟩ := hrule
      exact .not (hfits operand List.mem_cons_self _ hoperand)

/-- The type that is computed for an expression is assignable to every type that the rules give it. -/
theorem Program.HasType.fits (h : a.Describes p) (hdecls : ∀ c ∈ p.classes, c.checkDecl a = .ok ())
    (hids : (nodeIds p.visits).Nodup) (hroutine : p.Has routine) {e : Expr} {t : Ty}
    (ht : p.HasType routine assigned e t) :
    nodeIds e.visits ⊆ p.nodesIn routine → e.Fits ⟨a, routine.className?⟩ assigned t := by
  have hknown : ∀ c ∈ p.classes, ∀ span, a.forest.checkType (.object c.name) span = .ok () := by
    rintro c hc span
    rw [h.forest, Forest.checkType_eq_ok]
    rintro _ ⟨⟩
    exact Forest.contains_iff_exists.mpr ⟨c, hc, rfl⟩
  -- The induction is on the rules: a step of subsumption leaves the expression as it is.
  induction ht with
  | and _ _ ihleft ihright | less _ _ ihleft ihright =>
      intro hin
      have hleft := ihleft (Expr.nodeIds_subset_of_child hin List.mem_cons_self)
      have hright := ihright (Expr.nodeIds_subset_of_child hin (List.mem_cons_of_mem _ List.mem_cons_self))
      exact ⟨.boolean, Expr.typeOf_binary hleft hright, rfl⟩
  | arith hop _ _ ihleft ihright =>
      intro hin
      have hleft := ihleft (Expr.nodeIds_subset_of_child hin List.mem_cons_self)
      have hright := ihright (Expr.nodeIds_subset_of_child hin (List.mem_cons_of_mem _ List.mem_cons_self))
      rcases hop with rfl | rfl | rfl <;> exact ⟨.int, Expr.typeOf_binary hleft hright, rfl⟩
  | element _ _ iharray ihindex =>
      intro hin
      have harray := iharray (Expr.nodeIds_subset_of_child hin List.mem_cons_self)
      have hindex := ihindex (Expr.nodeIds_subset_of_child hin (List.mem_cons_of_mem _ List.mem_cons_self))
      refine ⟨.int, ?_, rfl⟩
      rw [Expr.typeOf, harray.bind_eq, hindex.bind_eq]
      rfl
  | length _ iharray =>
      intro hin
      have harray := iharray (Expr.nodeIds_subset_of_child hin List.mem_cons_self)
      refine ⟨.int, ?_, rfl⟩
      rw [Expr.typeOf, harray.bind_eq]
      rfl
  | @call node owner method args c d m _ hnearest hcount _ ihowner ihargs =>
      intro hin
      obtain ⟨_, howner, hsub⟩ := ihowner (Expr.nodeIds_subset_of_child hin List.mem_cons_self)
      obtain ⟨D, rfl, hsub⟩ := Forest.assignable_object_iff.mp hsub
      have hmethod := h.classMethod?_eq_some_iff.mpr ⟨c, d, m, rfl, hnearest, rfl⟩
      -- the class of the owner may have another method, but with the same parameters
      obtain ⟨signature, hfound, hformals, hret⟩ := h.standsFor_of_decls hdecls hsub hmethod
      rw [MethodDecl.formalTypes_signature] at hformals
      refine ⟨signature.ret, Expr.typeOf_call howner hfound ?_ ?_, hret⟩
      · rw [hformals, List.length_map, hcount]
      · rw [hformals]
        intro x hx
        exact ihargs x hx (Expr.nodeIds_subset_of_child hin (List.mem_cons_of_mem _ (List.of_mem_zip hx).1))
  | int => exact fun _ => ⟨.int, by rw [Expr.typeOf]; rfl, rfl⟩
  | bool => exact fun _ => ⟨.boolean, by rw [Expr.typeOf]; rfl, rfl⟩
  | @var node name b hb hassigned =>
      intro hin
      have hid : node.id ∈ p.nodesIn routine := hin (Expr.id_mem_nodeIds (.var node name))
      refine ⟨b.ty, ?_, hb.assignable_self hdecls hroutine⟩
      rw [Expr.typeOf, Context.readVariable_eq_ok]
      refine ⟨b, (h.resolve?_eq_some_iff hids hroutine hid).mpr hb, ?_, rfl⟩
      exact fun hunassigned => hunassigned.2 (hassigned hunassigned.1)
  | @this node C hC =>
      intro hin
      cases routine with
      | main => cases hC
      | method c m =>
          cases hC
          refine ⟨.object c.name, ?_, Forest.assignable_self (hknown c hroutine.1 node.span)⟩
          rw [Expr.typeOf]
          rfl
  | newArray _ ihsize =>
      intro hin
      have hsize := ihsize (Expr.nodeIds_subset_of_child hin List.mem_cons_self)
      refine ⟨.intArray, ?_, rfl⟩
      rw [Expr.typeOf, hsize.bind_eq]
      rfl
  | @newObject node C hC =>
      intro hin
      obtain ⟨c, hc, rfl⟩ := List.mem_map.mp hC
      have hc := hknown c hc node.span
      refine ⟨.object c.name, ?_, Forest.assignable_self hc⟩
      rw [Expr.typeOf]
      exact bind_eq_ok.mpr ⟨(), hc, rfl⟩
  | not _ ihoperand =>
      intro hin
      have hoperand := ihoperand (Expr.nodeIds_subset_of_child hin List.mem_cons_self)
      refine ⟨.boolean, ?_, rfl⟩
      rw [Expr.typeOf, hoperand.bind_eq]
      rfl
  | subsume _ hst ih =>
      intro hin
      obtain ⟨r, hr, hrs⟩ := ih hin
      exact ⟨r, hr, Forest.assignable_trans h.ordered_forest hrs (h.forest_eq ▸ hst)⟩

end

/-- If the declarations of a program are sound, the rules give an expression exactly the types that the type computed
for it is assignable to. -/
theorem hasType_iff_assignable_typeOf {p : Program} {a : Analysis} (ha : Analysis.ofProgram p = .ok a)
    (hdecls : ∀ c ∈ p.classes, c.checkDecl a = .ok ()) :
    (∀ source, parse source = .ok p → (nodeIds p.visits).Nodup) ∧
    ((nodeIds p.visits).Nodup → ∀ routine, p.Has routine → ∀ assigned, ∀ d ∈ p.exprsOf routine, ∀ e, e.Inside d →
      ∀ t, p.HasType routine assigned e t ↔
        ∃ s, e.typeOf ⟨a, routine.className?⟩ assigned = .ok s ∧ a.forest.assignable s t = true) := by
  have h := Analysis.describes ha
  refine ⟨fun _ => nodeIds_nodup_of_parse, ?_⟩
  intro hids routine hroutine assigned d hd e he t
  have hin := Program.nodeIds_subset_of_expr hd he
  constructor
  · exact fun ht => ht.fits h hdecls hids hroutine hin
  · rintro ⟨s, hs, hst⟩
    exact .subsume (Program.hasType_of_typeOf h hids hroutine e hin s hs) (h.forest_eq ▸ hst)

/-- A pony overrides the method `foal` of a horse with one that returns a pony; the main method asks for the height of a
pony's foal. -/
def paddock : Program where
  main := ⟨node 5, "Main", "args", .print (node 4) (.call (node 3) foal "height" [])⟩
  classes :=
    [horse, ⟨node 15, "Pony", some "Horse", [], [breed 12 "Pony"]⟩]
  span := .origin
where
  /-- a node by its identity -/
  node (id : NodeId) : Node := ⟨id, .origin⟩
  /-- the foal of a pony -/
  foal : Expr := .call (node 2) (.newObject (node 0) "Pony") "foal" [.int (node 1) 1]
  /-- a method with a parameter that returns its object -/
  breed (id : NodeId) (ret : String) : MethodDecl :=
    ⟨node (id + 2), .object ret, "foal", [⟨node id, .int, "year"⟩], [], [], .this (node (id + 1))⟩
  /-- the class above -/
  horse : ClassDecl :=
    ⟨node 11, "Horse", none, [], [breed 6 "Horse", ⟨node 10, .int, "height", [], [], [], .int (node 9) 150⟩]⟩

theorem hasType_iff_assignable_typeOf_paddock : ∃ a, Analysis.ofProgram paddock = .ok a ∧
    (∀ c ∈ paddock.classes, c.checkDecl a = .ok ()) ∧ (nodeIds paddock.visits).Nodup ∧
    paddock.HasType .main [] paddock.foal (.object "Horse") ∧
    ∀ t, paddock.HasType .main [] paddock.foal t ↔
      ∃ s, paddock.foal.typeOf ⟨a, none⟩ [] = .ok s ∧ a.forest.assignable s t = true := by
  have hvalid : paddock.validate = .ok () := rfl
  obtain ⟨a, ha, hcheck⟩ := bind_eq_ok.mp hvalid
  have hdecls := (Program.check_eq_ok.mp (mapError_eq_ok.mp hcheck)).1
  have hids : (nodeIds paddock.visits).Nodup := by decide
  -- the method is looked up at the class above that of its owner
  have howner : paddock.HasType .main [] (.newObject (paddock.node 0) "Pony") (.object paddock.horse.name) :=
    .subsume (.newObject (by decide)) (by decide)
  have hnearest : paddock.forest.Nearest (·.methods) (·.name) "foal" paddock.horse paddock.horse
      (paddock.breed 6 "Horse") :=
    ⟨[], [], .root List.mem_cons_self rfl, by simp, rfl, [], _, rfl, by decide⟩
  have hfoal : paddock.HasType .main [] paddock.foal (.object "Horse") := by
    refine .call howner hnearest rfl ?_
    exact List.forall_mem_singleton.mpr .int
  refine ⟨a, ha, hdecls, hids, hfoal, ?_⟩
  exact (hasType_iff_assignable_typeOf ha hdecls).2 hids .main trivial [] _ List.mem_cons_self _
    (.child List.mem_cons_self .self)

end Demitasse
