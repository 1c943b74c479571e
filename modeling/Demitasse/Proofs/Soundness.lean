import Demitasse.Proofs.Lowering
import Demitasse.Proofs.SafeRuns

/-!
Checked programs make no mistakes. Evaluation one level deeper is sound if evaluation of the parts is, so
evaluation with any fuel is: every value suits the type of its expression, local variables that count as assigned
have values, and what is met on the way leads on or to one of the three traps.
-/

namespace Demitasse

/-- An evaluator makes no mistakes in code that passes the checks. -/
structure Evaluator.Sound (I : Evaluator) (a : Analysis) : Prop where
  eval : ∀ {F : Frame} {stack : List (String × VarBinding)} {assigned : List String} {e : Expr} {ty : Ty} {s : Memory},
    a.Resolves F stack (nodeIds e.visits) → e.typeOf ⟨a, F.className⟩ assigned = .ok ty →
    s.Sound a F stack assigned → (I.eval F e).Safe a s fun v s' =>
      s.Next a F stack assigned s' ∧ v.Suits a.forest s'.heap ty
  exec : ∀ {F : Frame} {stack : List (String × VarBinding)} {assigned after : List String} {st : Stmt} {s : Memory},
    a.Resolves F stack (nodeIds st.visits) → st.check ⟨a, F.className⟩ assigned = .ok after →
    s.Sound a F stack assigned → (I.exec F st).Safe a s fun _ s' => s.Next a F stack after s'

theorem Analysis.Resolves.sub {a : Analysis} {F : Frame} {stack : List (String × VarBinding)} {v w : List Visit}
    (h : a.Resolves F stack (nodeIds w)) (hsub : v ⊆ w) : a.Resolves F stack (nodeIds v) :=
  fun id hid => h id (nodeIds_subset hsub hid)

namespace Evaluator

open Exec

section
variable {I : Evaluator} {a : Analysis} {p : Program} {F : Frame} {stack : List (String × VarBinding)}
  {assigned after : List String} {e : Expr} {ty : Ty} {s : Memory}

/-- The value of an expression suits the type that is wanted of it. -/
theorem Sound.fits (hI : I.Sound a) (h : a.Describes p) (hres : a.Resolves F stack (nodeIds e.visits))
    (he : e.Fits ⟨a, F.className⟩ assigned ty) (hs : s.Sound a F stack assigned) :
    (I.eval F e).Safe a s fun v s' => s.Next a F stack assigned s' ∧ v.Suits a.forest s'.heap ty := by
  obtain ⟨own, hown, hassignable⟩ := he
  refine (hI.eval hres hown hs).imp ?_
  rintro v s' ⟨hnext, hv⟩
  exact ⟨hnext, hv.widen h.ordered_forest hassignable⟩

theorem Sound.args (hI : I.Sound a) (h : a.Describes p) : ∀ {args : List Expr} {formals : List Ty} {s : Memory},
    a.Resolves F stack (nodeIds (Expr.visitsAll args)) → formals.length = args.length →
    Expr.checkArgs ⟨a, F.className⟩ assigned args formals = .ok () → s.Sound a F stack assigned →
    (args.mapM (I.eval F)).Safe a s fun vs s' =>
      s.Next a F stack assigned s' ∧ List.Forall₂ (fun v ty => v.Suits a.forest s'.heap ty) vs formals
  | [], [], s, _, _, _, hs => by
      rw [List.mapM_nil]
      exact ⟨hs.next, .nil⟩
  | arg :: args, formal :: formals, s, hres, hlength, hargs, hs => by
      obtain ⟨harg, hargs⟩ := Expr.checkArgs_cons_eq_ok hargs
      rw [Expr.visitsAll] at hres
      rw [List.mapM_cons]
      refine (hI.fits h (hres.sub (List.subset_append_left _ _)) harg hs).bind ?_
      rintro v s₁ ⟨hnext₁, hv⟩
      refine (hI.args h (hres.sub (List.subset_append_right _ _)) (Nat.succ.inj hlength) hargs hnext₁.sound).bind ?_
      rintro vs s₂ ⟨hnext₂, hvs⟩
      exact ⟨hnext₁.trans hnext₂, .cons (hv.mono hnext₂.grows) hvs⟩

theorem Sound.body (hI : I.Sound a) : ∀ {body : List Stmt} {assigned : List String} {s : Memory},
    a.Resolves F stack (nodeIds (Stmt.visitsAll body)) → Stmt.checkAll ⟨a, F.className⟩ assigned body = .ok after →
    s.Sound a F stack assigned → (body.forM (I.exec F)).Safe a s fun _ s' => s.Next a F stack after s'
  | [], _, s, _, hbody, hs => by
      rw [Stmt.checkAll] at hbody
      obtain rfl := pure_eq_ok.mp hbody
      exact hs.next
  | st :: rest, _, s, hres, hbody, hs => by
      obtain ⟨between, hst, hrest⟩ := Stmt.checkAll_cons_eq_ok hbody
      rw [Stmt.visitsAll] at hres
      refine (hI.exec (hres.sub (List.subset_append_left _ _)) hst hs).bind ?_
      intro _ s₁ hnext₁
      refine (hI.body (hres.sub (List.subset_append_right _ _)) hrest hnext₁.sound).imp ?_
      intro _ s₂ hnext₂
      exact hnext₁.trans hnext₂

end

end Evaluator

/-- The parameters and local variables of a method. -/
def MethodDecl.stack (m : MethodDecl) : List (String × VarBinding) :=
  m.formals.map (·.bind .param) ++ m.locals.map (·.bind .local)

section
variable {F : Forest} {h : Heap}

/-- Parameters have the values of their arguments. -/
theorem lookup_formals {formals : List VarDecl} {args : List Datum}
    (hargs : List.Forall₂ (fun v ty => v.Suits F h ty) args (formals.map (·.ty))) (name : String) :
    match (formals.map (·.bind .param)).lookup name with
    | some b => ∃ v, ((formals.zip args).map fun (f, v) => (f.name, some v)).lookup name = some (some v) ∧
        v.Suits F h b.ty
    | none => ((formals.zip args).map fun (f, v) => (f.name, some v)).lookup name = none := by
  induction formals generalizing args with
  | nil => rfl
  | cons f rest ih =>
      cases hargs with
      | @cons v _ args _ hv hrest =>
          rw [List.map_cons, List.zip_cons_cons, List.map_cons, VarDecl.bind, Table.lookup_cons, Table.lookup_cons]
          by_cases hname : name = f.name
          · rw [if_pos hname, if_pos hname]
            exact ⟨v, rfl, hv⟩
          · rw [if_neg hname, if_neg hname]
            exact ih hrest

theorem lookup_locals (locals : List VarDecl) (name : String) :
    match (locals.map (·.bind .local)).lookup name with
    | some b => (locals.map fun l => (l.name, (none : Option Datum))).lookup name = some none ∧ b.storage = .local
    | none => (locals.map fun l => (l.name, (none : Option Datum))).lookup name = none := by
  induction locals with
  | nil => rfl
  | cons l rest ih =>
      rw [List.map_cons, List.map_cons, VarDecl.bind, Table.lookup_cons, Table.lookup_cons]
      by_cases hname : name = l.name
      · rw [if_pos hname, if_pos hname]
        exact ⟨rfl, rfl⟩
      · rw [if_neg hname, if_neg hname]
        exact ih

/-- A method starts with its arguments as parameters and with no local variable assigned. -/
theorem MethodDecl.fills_vars {m : MethodDecl} {args : List Datum}
    (hargs : List.Forall₂ (fun v ty => v.Suits F h ty) args (m.formals.map (·.ty))) :
    (m.vars args).Fills F h m.stack [] := by
  have hfind : ∀ name, (m.vars args).find? name =
      (((m.formals.zip args).map fun (f, v) => (f.name, some v)).lookup name).or
        ((m.locals.map fun l => (l.name, none)).lookup name) := fun name => List.lookup_append
  constructor
  · intro name b hb
    have hformal := lookup_formals hargs name
    have hlocal := lookup_locals m.locals name
    rw [MethodDecl.stack, List.lookup_append] at hb
    rw [hfind]
    cases hparam : (m.formals.map (·.bind .param)).lookup name with
    | some b' =>
        rw [hparam] at hb hformal
        cases hb
        obtain ⟨v, hlookup, hv⟩ := hformal
        rw [hlookup]
        refine ⟨some v, rfl, nofun, ?_⟩
        rintro _ ⟨⟩
        exact hv
    | none =>
        rw [hparam] at hb hformal
        rw [Option.none_or] at hb
        rw [hb] at hlocal
        rw [hformal, hlocal.1]
        exact ⟨none, rfl, fun _ => ⟨hlocal.2, List.not_mem_nil⟩, nofun⟩
  · intro name hname
    have hformal := lookup_formals hargs name
    have hlocal := lookup_locals m.locals name
    rw [MethodDecl.stack, List.lookup_append, Option.or_eq_none_iff] at hname
    rw [hname.1] at hformal
    rw [hname.2] at hlocal
    rw [hfind, hformal, hlocal]
    rfl

end

namespace Analysis

variable {a : Analysis} {p : Program}

/-- Names in a method mean its variables and the fields of its class. -/
theorem Describes.resolves_method (h : a.Describes p) (hids : (nodeIds p.visits).Nodup) {K : ClassDecl}
    (hK : K ∈ p.classes) {m : MethodDecl} (hm : m ∈ K.methods) {F : Frame} (hF : F.className = some K.name) :
    a.Resolves F m.stack (nodeIds m.visits) := by
  intro id hid name
  rw [h.resolve? hids hK hm hid, hF]
  rfl

/-- Names in the main method mean nothing. -/
theorem Describes.resolves_main (h : a.Describes p) (hids : (nodeIds p.visits).Nodup) :
    a.Resolves .main [] (nodeIds p.main.visits) := by
  intro id hid name
  exact h.resolve?_main hids hid name

theorem Describes.classMethod?_eq_map (h : a.Describes p) (D method : String) :
    a.scopes.classMethod? D method = (p.implementation? D method).map fun (C, m) => m.signature C := by
  rw [h.classMethod?, Program.implementation?, h.forest_eq, List.map_findSome?]
  congr 1
  funext c
  rw [Function.comp_apply, Option.map_map]
  rfl

/-- The method that an object has under a name is declared by its class or an ancestor, and may stand for the
one that a superclass of the object has. -/
theorem Describes.exists_implementation? (h : a.Describes p) (hcheck : p.check a = .ok ()) {C D method : String}
    (hsub : a.forest.isSubclass D C = true) {signature : MethodSig}
    (hC : a.scopes.classMethod? C method = some signature) :
    ∃ K ∈ p.classes, ∃ m ∈ K.methods, p.implementation? D method = some (K.name, m) ∧
      a.forest.isSubclass D K.name = true ∧ a.forest.StandsFor (m.signature K.name) signature := by
  obtain ⟨sD, hD, hstands⟩ := h.standsFor hcheck hsub hC
  rw [h.classMethod?_eq_map] at hD
  obtain ⟨⟨className, m⟩, himpl, rfl⟩ := Option.map_eq_some_iff.mp hD
  obtain ⟨K, hK, hfound⟩ := List.exists_of_findSome?_eq_some himpl
  obtain ⟨m', hm', heq⟩ := Option.map_eq_some_iff.mp hfound
  cases heq
  rw [h.forest_eq] at hK
  refine ⟨K, h.mem_classes hK, m, List.mem_of_find?_eq_some hm', himpl, ?_, hstands⟩
  exact Forest.isSubclass_iff.mpr ⟨K, hK, rfl⟩

end Analysis

/-- A program that passes all checks, with its analysis. -/
structure Program.Accepted (p : Program) (a : Analysis) : Prop where
  describes : a.Describes p
  checked : p.check a = .ok ()
  nodup : (nodeIds p.visits).Nodup

namespace Evaluator

open Exec

section
variable {I : Evaluator} {a : Analysis} {p : Program} {F : Frame} {stack : List (String × VarBinding)}
  {assigned after : List String} {s : Memory}

/-- A call leaves the variables of the caller alone and returns what the method promises. -/
theorem Sound.call (hI : I.Sound a) (hp : p.Accepted a) {K : ClassDecl} (hK : K ∈ p.classes) {m : MethodDecl}
    (hm : m ∈ K.methods) {loc : Nat} {args : List Datum} (hs : s.Sound a F stack assigned)
    (hthis : (Datum.ref loc).Suits a.forest s.heap (.object K.name))
    (hargs : List.Forall₂ (fun v ty => v.Suits a.forest s.heap ty) args (m.formals.map (·.ty))) :
    (I.call ⟨some K.name, some loc⟩ m args).Safe a s fun v s' =>
      s.Next a F stack assigned s' ∧ v.Suits a.forest s'.heap m.returnType := by
  obtain ⟨after, hbody, hresult⟩ := MethodDecl.checkBody_eq_ok.mp ((Program.check_eq_ok.mp hp.checked).2.2 K hK m hm)
  have hres := hp.describes.resolves_method hp.nodup hK hm (F := ⟨some K.name, some loc⟩) rfl
  have hvisits : Stmt.visitsAll m.body ⊆ m.visits ∧ m.result.visits ⊆ m.visits := by
    rw [MethodDecl.visits]
    constructor
    · intro v hv
      exact .tail _ (.tail _ (List.mem_append_left _ (List.mem_append_right _ hv)))
    · intro v hv
      exact .tail _ (.tail _ (List.mem_append_right _ hv))
  have hstart : Memory.Sound a ⟨some K.name, some loc⟩ m.stack [] { s with vars := m.vars args } := by
    refine ⟨hs.heap, MethodDecl.fills_vars hargs, ?_, hs.traced⟩
    rintro C ⟨⟩
    exact ⟨loc, rfl, hthis⟩
  change ((m.body.forM (I.exec ⟨some K.name, some loc⟩)) >>= fun _ => _).Safe a { s with vars := m.vars args } _
  refine (hI.body (hres.sub hvisits.1) hbody hstart).bind ?_
  intro _ s₁ hnext₁
  refine (hI.fits hp.describes (hres.sub hvisits.2) hresult hnext₁.sound).bind ?_
  rintro v s₂ ⟨hnext₂, hv⟩
  have hnext := hnext₁.trans hnext₂
  exact ⟨hs.resume hnext.grows hnext.sound.heap hnext.sound.traced rfl, hv⟩

/-- A call on an object that has a method reaches one that may stand for it. -/
theorem Sound.dispatch (hI : I.Sound a) (hp : p.Accepted a) {C method : String} {signature : MethodSig}
    (hC : a.scopes.classMethod? C method = some signature) {owner : Datum} {args : List Datum}
    (hs : s.Sound a F stack assigned) (howner : owner.Suits a.forest s.heap (.object C))
    (hargs : List.Forall₂ (fun v ty => v.Suits a.forest s.heap ty) args signature.formalTypes) :
    (I.dispatch p owner method args).Safe a s fun v s' =>
      s.Next a F stack assigned s' ∧ v.Suits a.forest s'.heap signature.ret := by
  have hordered := hp.describes.ordered_forest
  rcases howner.object with rfl | ⟨loc, D, fields, rfl, hloc, hsub⟩
  · exact safe_trap hs.traced
  · obtain ⟨K, hK, m, hm, himpl, hsubK, hstands⟩ := hp.describes.exists_implementation? hp.checked hsub hC
    have hformals := hstands.formals
    rw [MethodDecl.formalTypes_signature] at hformals
    have hcount : m.formals.length = args.length := by
      rw [hargs.length_eq, ← hformals, List.length_map]
    have hthis : (Datum.ref loc).Suits a.forest s.heap (.object K.name) :=
      .typed (congrArg (Option.map Cell.ty) hloc) hsubK
    have hdispatch : (I.dispatch p (.ref loc) method args).run s = (I.call ⟨some K.name, some loc⟩ m args).run s := by
      simp only [Evaluator.dispatch, cell, EStateM.run_bind, EStateM.run_get, hloc, EStateM.run_pure, himpl, hcount,
        if_true]
    rw [← hformals] at hargs
    have hcall := hI.call hp hK hm hs hthis hargs
    rw [Safe, hdispatch]
    refine Safe.imp hcall ?_
    rintro v s' ⟨hnext, hv⟩
    exact ⟨hnext, hv.widen hordered hstands.ret⟩

/-! ### Forms of expressions and statements -/

/-- Operands that suit an operator give a value that suits its result. -/
theorem safe_compute {op : BinOp} {v w : Datum} (hs : s.Sound a F stack assigned)
    (hv : v.Suits a.forest s.heap op.operandTy) (hw : w.Suits a.forest s.heap op.operandTy) :
    (op.compute v w).Safe a s fun r s' => s.Next a F stack assigned s' ∧ r.Suits a.forest s'.heap op.resultTy := by
  cases op with
  | and =>
      obtain ⟨b, rfl⟩ := hv.boolean
      obtain ⟨c, rfl⟩ := hw.boolean
      exact ⟨hs.next, Datum.suits_bool _⟩
  | less =>
      obtain ⟨m, rfl⟩ := hv.int
      obtain ⟨n, rfl⟩ := hw.int
      exact ⟨hs.next, Datum.suits_bool _⟩
  | _ =>
      obtain ⟨m, rfl⟩ := hv.int
      obtain ⟨n, rfl⟩ := hw.int
      exact ⟨hs.next, Datum.suits_int _⟩

/-- A new place has the type of what is put there. -/
theorem safe_alloc {c : Cell} (hs : s.Sound a F stack assigned) (hc : c.Sound a.forest s.heap)
    (hty : a.forest.assignable c.ty c.ty = true) :
    (alloc c).Safe a s fun v s' => s.Next a F stack assigned s' ∧ v.Suits a.forest s'.heap c.ty := by
  refine ⟨hs.resume (Heap.grows_append _ _) (hs.heap.append hc) hs.traced rfl, .typed ?_ hty⟩
  change (s.heap ++ [c])[s.heap.length]?.map Cell.ty = _
  rw [List.getElem?_concat_length]
  rfl

theorem Sound.evalForm (hI : I.Sound a) (hp : p.Accepted a) {e : Expr} {ty : Ty}
    (hres : a.Resolves F stack (nodeIds e.visits)) (he : e.typeOf ⟨a, F.className⟩ assigned = .ok ty)
    (hs : s.Sound a F stack assigned) :
    (I.evalForm p F e).Safe a s fun v s' => s.Next a F stack assigned s' ∧ v.Suits a.forest s'.heap ty := by
  have hpart : ∀ c ∈ e.children, a.Resolves F stack (nodeIds c.visits) := fun c hc =>
    hres.sub (Expr.visits_subset_of_child c hc)
  have hd := hp.describes
  have hrule := Expr.rule_of_typeOf he
  cases e with
  | binary node op left right =>
      obtain ⟨hleft, hright, rfl⟩ := hrule
      refine (hI.fits hd (hpart _ (.head _)) hleft hs).bind ?_
      rintro v s₁ ⟨hnext₁, hv⟩
      by_cases hfalse : op = .and ∧ v = .bool false
      · obtain ⟨rfl, rfl⟩ := hfalse
        exact ⟨hnext₁, hv⟩
      · rw [if_neg hfalse]
        refine (hI.fits hd (hpart _ (.tail _ (.head _))) hright hnext₁.sound).bind ?_
        rintro w s₂ ⟨hnext₂, hw⟩
        refine (safe_compute hnext₂.sound (hv.mono hnext₂.grows) hw).imp ?_
        rintro r s₃ ⟨hnext₃, hr⟩
        exact ⟨(hnext₁.trans hnext₂).trans hnext₃, hr⟩
  | element node array index =>
      obtain ⟨harray, hindex, rfl⟩ := hrule
      refine (hI.fits hd (hpart _ (.head _)) harray hs).bind ?_
      rintro v s₁ ⟨hnext₁, hv⟩
      refine (hI.fits hd (hpart _ (.tail _ (.head _))) hindex hnext₁.sound).bind ?_
      rintro i s₂ ⟨hnext₂, hi⟩
      refine (safe_asInt hi).bind ?_
      rintro n _ rfl
      have hnext := hnext₁.trans hnext₂
      refine (safe_array hnext.sound.traced (hv.mono hnext₂.grows)).bind ?_
      rintro ⟨loc, elements⟩ _ ⟨rfl, _⟩
      refine (safe_position hnext.sound.traced elements n).bind ?_
      rintro k _ rfl
      exact ⟨hnext, Datum.suits_int _⟩
  | length node array =>
      obtain ⟨harray, rfl⟩ := hrule
      refine (hI.fits hd (hpart _ (.head _)) harray hs).bind ?_
      rintro v s₁ ⟨hnext₁, hv⟩
      refine (safe_array hnext₁.sound.traced hv).bind ?_
      rintro ⟨loc, elements⟩ _ ⟨rfl, _⟩
      exact ⟨hnext₁, Datum.suits_int _⟩
  | call node owner method args =>
      obtain ⟨C, signature, howner, hmethod, hcount, hargs, rfl⟩ := hrule
      refine (hI.eval (hpart _ (.head _)) howner hs).bind ?_
      rintro v s₁ ⟨hnext₁, hv⟩
      have hresArgs : a.Resolves F stack (nodeIds (Expr.visitsAll args)) := by
        rw [Expr.visits] at hres
        exact hres.sub (List.subset_cons_of_subset _ (List.subset_append_right _ _))
      refine (hI.args hd hresArgs hcount hargs hnext₁.sound).bind ?_
      rintro vs s₂ ⟨hnext₂, hvs⟩
      refine (hI.dispatch hp hmethod hnext₂.sound (hv.mono hnext₂.grows) hvs).imp ?_
      rintro r s₃ ⟨hnext₃, hr⟩
      exact ⟨(hnext₁.trans hnext₂).trans hnext₃, hr⟩
  | int node value =>
      obtain rfl := hrule
      exact ⟨hs.next, Datum.suits_int _⟩
  | bool node value =>
      obtain rfl := hrule
      exact ⟨hs.next, Datum.suits_bool _⟩
  | var node name =>
      rw [Expr.typeOf] at he
      obtain ⟨b, hb, hassigned, rfl⟩ := Context.readVariable_eq_ok.mp he
      rw [hres node.id (.head _)] at hb
      refine (hs.safe_read hd hb hassigned).imp ?_
      rintro v _ ⟨rfl, hv⟩
      exact ⟨hs.next, hv⟩
  | this node =>
      obtain ⟨C, hC, rfl⟩ := hrule
      obtain ⟨loc, hloc, hthis⟩ := hs.receiver C hC
      simp only [Evaluator.evalForm, hloc]
      exact ⟨hs.next, hthis⟩
  | newArray node size =>
      obtain ⟨hsize, rfl⟩ := hrule
      refine (hI.fits hd (hpart _ (.head _)) hsize hs).bind ?_
      rintro v s₁ ⟨hnext₁, hv⟩
      refine (safe_asInt hv).bind ?_
      rintro n _ rfl
      by_cases hneg : n.toInt < 0
      · rw [if_pos hneg]
        exact safe_trap hnext₁.sound.traced
      · rw [if_neg hneg]
        refine (safe_alloc (c := .array (List.replicate n.toNat 0)) hnext₁.sound trivial rfl).imp ?_
        rintro r s₂ ⟨hnext₂, hr⟩
        exact ⟨hnext₁.trans hnext₂, hr⟩
  | newObject node className =>
      obtain ⟨hclass, rfl⟩ := hrule
      obtain ⟨c, hc, hty, hsound⟩ := hd.exists_instance? hp.checked hclass s.heap
      simp only [Evaluator.evalForm, hc]
      rw [← hty]
      apply safe_alloc hs hsound
      rw [hty]
      exact Forest.isSubclass_self hclass
  | not node operand =>
      obtain ⟨hoperand, rfl⟩ := hrule
      refine (hI.fits hd (hpart _ (.head _)) hoperand hs).bind ?_
      rintro v s₁ ⟨hnext₁, hv⟩
      refine (safe_asBool hv).bind ?_
      rintro b _ rfl
      exact ⟨hnext₁, Datum.suits_bool _⟩

theorem Sound.execForm (hI : I.Sound a) (hp : p.Accepted a) {st : Stmt}
    (hres : a.Resolves F stack (nodeIds st.visits)) (hst : st.check ⟨a, F.className⟩ assigned = .ok after)
    (hs : s.Sound a F stack assigned) :
    (I.execForm p F st).Safe a s fun _ s' => s.Next a F stack after s' := by
  have hd := hp.describes
  have hrule := Stmt.rule_of_check hst
  have heffect := Stmt.effect_of_check hst
  have hpart : ∀ e ∈ st.exprs, a.Resolves F stack (nodeIds e.visits) := fun e he =>
    hres.sub (st.visits_subset_of_mem_exprs e he)
  cases st with
  | block node body =>
      rw [Stmt.visits] at hres
      exact hI.body (hres.sub (List.subset_cons_self _ _)) heffect hs
  | ifElse node cond thenBranch elseBranch =>
      obtain ⟨hcond, _, _⟩ := hrule
      obtain ⟨afterThen, afterElse, hthen, helse, rfl⟩ := heffect
      rw [Stmt.visits, List.append_assoc] at hres
      have hvisits : ∀ (v : Visit) (l m r : List Visit), m ⊆ v :: (l ++ (m ++ r)) ∧ r ⊆ v :: (l ++ (m ++ r)) :=
        fun v l m r => ⟨fun x hx => .tail _ (List.mem_append_right _ (List.mem_append_left _ hx)),
          fun x hx => .tail _ (List.mem_append_right _ (List.mem_append_right _ hx))⟩
      refine (hI.fits hd (hpart _ (by rw [Stmt.exprs]; exact .head _)) hcond hs).bind ?_
      rintro v s₁ ⟨hnext₁, hv⟩
      refine (safe_asBool hv).bind ?_
      rintro b _ rfl
      cases b with
      | true =>
          refine (hI.exec (hres.sub (hvisits _ _ _ _).1) hthen hnext₁.sound).imp ?_
          intro _ s₂ hnext₂
          refine hnext₁.trans ⟨hnext₂.sound.forget ?_, hnext₂.grows⟩
          exact fun name hname => of_decide_eq_true (List.mem_filter.mp hname).2
      | false =>
          refine (hI.exec (hres.sub (hvisits _ _ _ _).2) helse hnext₁.sound).imp ?_
          intro _ s₂ hnext₂
          exact hnext₁.trans ⟨hnext₂.sound.forget (List.filter_subset_self _), hnext₂.grows⟩
  | loop node cond body =>
      obtain ⟨hcond, afterBody, hbody⟩ := hrule
      obtain rfl := heffect
      refine (hI.fits hd (hpart _ (by rw [Stmt.exprs]; exact .head _)) hcond hs).bind ?_
      rintro v s₁ ⟨hnext₁, hv⟩
      refine (safe_asBool hv).bind ?_
      rintro b _ rfl
      cases b with
      | false => exact hnext₁
      | true =>
          have hresBody : a.Resolves F stack (nodeIds body.visits) := by
            rw [Stmt.visits] at hres
            exact hres.sub (List.subset_cons_of_subset _ (List.subset_append_right _ _))
          refine (hI.exec hresBody hbody hnext₁.sound).bind ?_
          intro _ s₂ hnext₂
          -- What the body assigns does not count, for the loop is entered again as it was before.
          have hagain := hnext₂.sound.forget (body.assigned_subset hbody)
          refine (hI.exec hres hst hagain).imp ?_
          intro _ s₃ hnext₃
          exact ⟨hnext₃.sound, (hnext₁.grows.trans hnext₂.grows).trans hnext₃.grows⟩
  | print node arg =>
      obtain rfl := heffect
      refine (hI.fits hd (hpart _ (by rw [Stmt.exprs]; exact .head _)) hrule hs).bind ?_
      rintro v s₁ ⟨hnext₁, hv⟩
      refine (safe_asInt hv).bind ?_
      rintro n _ rfl
      have hsound := hnext₁.sound
      exact ⟨⟨hsound.heap, hsound.vars, hsound.receiver, hsound.traced⟩, hnext₁.grows⟩
  | assign node target value =>
      obtain ⟨b, hb, hvalue⟩ := hrule
      obtain ⟨b', hb', rfl⟩ := heffect
      cases hb.symm.trans hb'
      rw [hres node.id (by rw [Stmt.visits]; exact .head _)] at hb
      refine (hI.fits hd (hpart _ (by rw [Stmt.exprs]; exact .head _)) hvalue hs).bind ?_
      rintro v s₁ ⟨hnext₁, hv⟩
      refine (hnext₁.sound.safe_write hd hp.checked hb hv).imp ?_
      intro _ s₂ hnext₂
      exact hnext₁.trans hnext₂
  | assignElement node target index value =>
      obtain ⟨_, hindex, hvalue⟩ := hrule
      obtain ⟨hread, rfl⟩ := heffect
      obtain ⟨b, hb, hassigned, hty⟩ := Context.readVariable_eq_ok.mp hread
      rw [hres node.id (by rw [Stmt.visits]; exact .head _)] at hb
      refine (hs.safe_read hd hb hassigned).bind ?_
      rintro v _ ⟨rfl, hv⟩
      refine (hI.fits hd (hpart _ (by rw [Stmt.exprs]; exact .head _)) hindex hs).bind ?_
      rintro i s₁ ⟨hnext₁, hi⟩
      refine (safe_asInt hi).bind ?_
      rintro i _ rfl
      refine (hI.fits hd (hpart _ (by rw [Stmt.exprs]; exact .tail _ (.head _))) hvalue hnext₁.sound).bind ?_
      rintro n s₂ ⟨hnext₂, hn⟩
      refine (safe_asInt hn).bind ?_
      rintro n _ rfl
      have hnext := hnext₁.trans hnext₂
      rw [hty] at hv
      refine (safe_array hnext.sound.traced (hv.mono hnext.grows)).bind ?_
      rintro ⟨loc, elements⟩ _ ⟨rfl, hloc⟩
      refine (safe_position hnext.sound.traced elements i).bind ?_
      rintro k _ rfl
      have hset : Heap.Sound a.forest (s₂.heap.set loc (.array (elements.set k n))) :=
        hnext.sound.heap.set hloc rfl trivial
      exact hnext.trans (hnext.sound.resume (Heap.grows_set hloc rfl) hset hnext.sound.traced rfl)

theorem Sound.deeper (hI : I.Sound a) (hp : p.Accepted a) : (I.deeper p).Sound a where
  eval := by
    intro F stack assigned e ty s hres he hs
    refine (hI.evalForm hp hres he hs).bind ?_
    rintro v s₁ ⟨hnext, hv⟩
    have hsound := hnext.sound
    refine ⟨⟨⟨hsound.heap, hsound.vars, hsound.receiver, ?_⟩, hnext.grows⟩, hv⟩
    refine List.forall_mem_cons.mpr ⟨⟨⟨assigned, ty, he⟩, ?_⟩, hsound.traced⟩
    intro assigned' ty' he'
    cases e.typeOf_unique he he'
    exact hv
  exec := hI.execForm hp

theorem sound_withFuel (hp : p.Accepted a) (fuel : Nat) : (withFuel p fuel).Sound a := by
  induction fuel with
  | zero => exact ⟨fun _ _ hs => safe_outOfFuel hs.traced, fun _ _ hs => safe_outOfFuel hs.traced⟩
  | succ fuel ih => exact ih.deeper hp

end

end Evaluator

/-- A program that passes the checks comes to its end, runs out of fuel or ends in a trap. On the way every value of
an expression suits the type of the expression. What a run does before its fuel is used up does not depend
on the fuel. -/
theorem run_of_accepted {source : String} {p : Program} {a : Analysis} (hparse : parse source = .ok p)
    (ha : Analysis.ofProgram p = .ok a) (hcheck : p.check a = .ok ()) (fuel : Nat) :
    ∃ s : Memory,
      (p.run fuel = .ok () s ∨ p.run fuel = .error .outOfFuel s ∨ ∃ t : Trap, p.run fuel = .error (.trap t) s) ∧
      (∀ o ∈ s.history, o.expr.Typed ⟨a, o.className⟩ ∧
        ∀ assigned ty, o.expr.typeOf ⟨a, o.className⟩ assigned = .ok ty → o.datum.Suits a.forest o.heap ty) ∧
      (p.run fuel ≠ .error .outOfFuel s → ∀ more ≥ fuel, p.run more = p.run fuel) := by
  have hp : p.Accepted a := ⟨Analysis.describes ha, hcheck, nodeIds_nodup_of_parse hparse⟩
  obtain ⟨_, ⟨after, hmain⟩, _⟩ := Program.check_eq_ok.mp hcheck
  have hres : a.Resolves .main [] (nodeIds p.main.body.visits) :=
    (hp.describes.resolves_main hp.nodup).sub (List.subset_cons_self _ _)
  have hstart : Memory.Sound a .main [] [] .initial :=
    ⟨Heap.sound_nil, ⟨nofun, fun _ _ => rfl⟩, nofun, List.forall_mem_nil _⟩
  have hsafe := (Evaluator.sound_withFuel hp fuel).exec hres hmain hstart
  have hmore : ∀ more ≥ fuel, (∃ s, p.run fuel = .error .outOfFuel s) ∨ p.run fuel = p.run more :=
    fun more hle => (Evaluator.below_withFuel p hle).exec .main p.main.body .initial
  have hexec : ((Evaluator.withFuel p fuel).exec .main p.main.body).run .initial = p.run fuel := rfl
  rw [Exec.Safe, hexec] at hsafe
  cases hrun : p.run fuel with
  | ok v s =>
      rw [hrun] at hsafe
      refine ⟨s, .inl rfl, hsafe.sound.traced, fun _ more hle => ?_⟩
      rcases hmore more hle with ⟨_, hfuel⟩ | heq
      · cases hrun.symm.trans hfuel
      · exact heq.symm.trans hrun
  | error stop s =>
      rw [hrun] at hsafe
      refine ⟨s, ?_, hsafe.2, fun hne more hle => ?_⟩
      · cases stop with
        | outOfFuel => exact .inr (.inl rfl)
        | trap t => exact .inr (.inr ⟨t, rfl⟩)
        | mistake m => exact hsafe.1.elim
      · rcases hmore more hle with ⟨_, hfuel⟩ | heq
        · cases hrun.symm.trans hfuel
          exact absurd rfl hne
        · exact heq.symm.trans hrun

/-- The class of an object decides which of two methods is called, and both see the inherited field. -/
def petSource : String :=
  "class M\x7bpublic static void main(String[]a)\x7bSystem.out.println(new Dog().f(3));\x7d\x7d " ++
    "class Pet\x7bint k;int f(int n)\x7breturn n;\x7d\x7d " ++
    "class Dog extends Pet\x7bint f(int n)\x7bk=n+n;return new Pet().f(k)+k;\x7d\x7d"

theorem run_of_accepted_pet : ∃ p a, parse petSource = .ok p ∧ Analysis.ofProgram p = .ok a ∧
    p.check a = .ok () ∧ p.output? 7 = some [12] ∧ ∃ s : Memory,
      (p.run 7 = .ok () s ∨ p.run 7 = .error .outOfFuel s ∨ ∃ t : Trap, p.run 7 = .error (.trap t) s) ∧
      (∀ o ∈ s.history, o.expr.Typed ⟨a, o.className⟩ ∧
        ∀ assigned ty, o.expr.typeOf ⟨a, o.className⟩ assigned = .ok ty → o.datum.Suits a.forest o.heap ty) ∧
      (p.run 7 ≠ .error .outOfFuel s → ∀ more ≥ 7, p.run more = p.run 7) := by
  have h : (isValid petSource).toOption = some true ∧
      ((parse petSource).toOption.bind fun p => p.output? 7) = some [12] := by decide +kernel
  obtain ⟨hvalid, houtput⟩ := h
  obtain ⟨p, a, hparse, ha, hcheck⟩ := accepted_of_isValid hvalid
  rw [hparse] at houtput
  exact ⟨p, a, hparse, ha, hcheck, houtput, run_of_accepted hparse ha hcheck 7⟩

end Demitasse
