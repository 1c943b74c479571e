import Demitasse.Proofs.Outcome
import Demitasse.Typing.Program

/-! What the checks ask of the declarations of a program. -/

namespace Demitasse

section
variable {α : Type} (key : α → String)

/-- The names of the items differ from each other and from those that were seen before. -/
def Fresh (seen : List String) (items : List α) : Prop :=
  (items.map key).Nodup ∧ ∀ a ∈ items, key a ∉ seen

theorem fresh_nil (seen : List String) : Fresh key seen [] :=
  ⟨List.nodup_nil, fun _ h => absurd h List.not_mem_nil⟩

theorem fresh_cons (seen : List String) (a : α) (items : List α) :
    Fresh key seen (a :: items) ↔ key a ∉ seen ∧ Fresh key (key a :: seen) items := by
  rw [Fresh, Fresh, List.map_cons, List.nodup_cons, List.forall_mem_cons]
  simp only [List.mem_map, List.mem_cons, not_or]
  constructor
  · rintro ⟨⟨hfirst, hnodup⟩, hseen, hrest⟩
    exact ⟨hseen, hnodup, fun b hb => ⟨fun heq => hfirst ⟨b, hb, heq⟩, hrest b hb⟩⟩
  · rintro ⟨hseen, hnodup, hrest⟩
    refine ⟨⟨?_, hnodup⟩, hseen, fun b hb => (hrest b hb).2⟩
    rintro ⟨b, hb, heq⟩
    exact (hrest b hb).1 heq

end

theorem Forest.checkType_eq_ok {F : Forest} {ty : Ty} {span : Span} :
    F.checkType ty span = .ok () ↔ ∀ className, ty = .object className → F.contains className = true := by
  cases ty with
  | object className => simp [checkType]
  | _ => simp [checkType]

/-- Fields pass if their types are known and their names are new. -/
theorem ClassDecl.checkFields_eq_ok {F : Forest} {c : ClassDecl} {inherited : List String} (fs : List VarDecl) :
    ∀ {seen : List String}, c.checkFields F inherited seen fs = .ok () ↔
      Fresh (·.name) seen fs ∧ ∀ f ∈ fs, F.checkType f.ty f.node.span = .ok () ∧ f.name ∉ inherited := by
  induction fs with
  | nil => simp [checkFields, fresh_nil, pure, Except.pure]
  | cons f rest ih =>
      intro seen
      rw [checkFields, bind_eq_ok, fresh_cons, List.forall_mem_cons]
      constructor
      · rintro ⟨⟨⟩, htype, h⟩
        obtain ⟨hseen, h⟩ := ite_throw_eq_ok.mp h
        obtain ⟨hinherited, h⟩ := ite_throw_eq_ok.mp h
        obtain ⟨hfresh, hrest⟩ := ih.mp h
        exact ⟨⟨hseen, hfresh⟩, ⟨htype, hinherited⟩, hrest⟩
      · rintro ⟨⟨hseen, hfresh⟩, ⟨htype, hinherited⟩, hrest⟩
        exact ⟨(), htype, ite_throw_eq_ok.mpr ⟨hseen, ite_throw_eq_ok.mpr ⟨hinherited, ih.mpr ⟨hfresh, hrest⟩⟩⟩⟩

/-- Methods pass if their names are new and their declarations are sound. -/
theorem ClassDecl.checkMethods_eq_ok {a : Analysis} {c : ClassDecl} (ms : List MethodDecl) :
    ∀ {seen : List String}, c.checkMethods a seen ms = .ok () ↔
      Fresh (·.name) seen ms ∧ ∀ m ∈ ms, m.checkDecl a c = .ok () := by
  induction ms with
  | nil => simp [checkMethods, fresh_nil, pure, Except.pure]
  | cons m rest ih =>
      intro seen
      rw [checkMethods, fresh_cons, List.forall_mem_cons]
      constructor
      · intro h
        obtain ⟨hseen, h⟩ := ite_throw_eq_ok.mp h
        obtain ⟨⟨⟩, hdecl, h⟩ := bind_eq_ok.mp h
        obtain ⟨hfresh, hrest⟩ := ih.mp h
        exact ⟨⟨hseen, hfresh⟩, hdecl, hrest⟩
      · rintro ⟨⟨hseen, hfresh⟩, hdecl, hrest⟩
        exact ite_throw_eq_ok.mpr ⟨hseen, bind_eq_ok.mpr ⟨(), hdecl, ih.mpr ⟨hfresh, hrest⟩⟩⟩

/-- Variables pass if their types are known and their names are new. -/
theorem checkBindings_eq_ok {F : Forest} {repeated : String → TypingFault} {after : List String}
    (vs : List VarDecl) : ∀ {seen : List String}, checkBindings F repeated seen vs = .ok after ↔
      Fresh (·.name) seen vs ∧ (∀ v ∈ vs, F.checkType v.ty v.node.span = .ok ()) ∧
        after = (vs.map (·.name)).reverse ++ seen := by
  induction vs with
  | nil => simp [checkBindings, fresh_nil, pure, Except.pure, eq_comm]
  | cons v rest ih =>
      intro seen
      rw [checkBindings, bind_eq_ok, fresh_cons, List.forall_mem_cons, List.map_cons, List.reverse_cons,
        List.append_assoc, List.singleton_append]
      constructor
      · rintro ⟨⟨⟩, htype, h⟩
        obtain ⟨hseen, h⟩ := ite_throw_eq_ok.mp h
        obtain ⟨hfresh, hrest, hafter⟩ := ih.mp h
        exact ⟨⟨hseen, hfresh⟩, ⟨htype, hrest⟩, hafter⟩
      · rintro ⟨⟨hseen, hfresh⟩, ⟨htype, hrest⟩, hafter⟩
        exact ⟨(), htype, ite_throw_eq_ok.mpr ⟨hseen, ih.mpr ⟨hfresh, hrest, hafter⟩⟩⟩

/-- A method that passes returns a known type, its parameters and local variables have different names, and it
may stand in the place of the method that it overrides. -/
theorem MethodDecl.of_checkDecl {a : Analysis} {c : ClassDecl} {m : MethodDecl}
    (h : m.checkDecl a c = .ok ()) :
    a.forest.checkType m.returnType m.node.span = .ok () ∧ ((m.formals ++ m.locals).map (·.name)).Nodup ∧
      m.checkOverride a c = .ok () := by
  obtain ⟨_, htype, h⟩ := bind_eq_ok.mp h
  obtain ⟨names, hformals, h⟩ := bind_eq_ok.mp h
  obtain ⟨_, hlocals, hoverride⟩ := bind_eq_ok.mp h
  obtain ⟨hfresh, _, hnames⟩ := (checkBindings_eq_ok _).mp hformals
  obtain ⟨hfresh', _, _⟩ := (checkBindings_eq_ok _).mp hlocals
  refine ⟨htype, ?_, hoverride⟩
  rw [List.map_append, List.nodup_append]
  refine ⟨hfresh.1, hfresh'.1, ?_⟩
  rintro name hname _ hother rfl
  obtain ⟨v, hv, hname'⟩ := List.mem_map.mp hother
  apply hfresh'.2 v hv
  change v.name ∈ names
  rw [hname', hnames, List.append_nil, List.mem_reverse]
  exact hname

theorem MethodDecl.checkType_of_checkDecl {a : Analysis} {c : ClassDecl} {m : MethodDecl}
    (h : m.checkDecl a c = .ok ()) : ∀ v ∈ m.formals ++ m.locals, a.forest.checkType v.ty v.node.span = .ok () := by
  obtain ⟨_, _, h⟩ := bind_eq_ok.mp h
  obtain ⟨_, hformals, h⟩ := bind_eq_ok.mp h
  obtain ⟨_, hlocals, _⟩ := bind_eq_ok.mp h
  exact List.forall_mem_append.mpr
    ⟨((checkBindings_eq_ok _).mp hformals).2.1, ((checkBindings_eq_ok _).mp hlocals).2.1⟩

theorem MethodDecl.of_checkOverride {a : Analysis} {c : ClassDecl} {m : MethodDecl} {superName : String}
    {overridden : MethodSig} (h : m.checkOverride a c = .ok ()) (hsuper : c.superName = some superName)
    (hfound : a.scopes.classMethod? superName m.name = some overridden) :
    overridden.formalTypes = m.formals.map (·.ty) ∧ a.forest.assignable m.returnType overridden.ret = true := by
  simp only [checkOverride, hsuper, Option.bind_some, hfound] at h
  obtain ⟨hformals, h⟩ := ite_throw_eq_ok.mp h
  obtain ⟨hret, _⟩ := ite_throw_eq_ok.mp h
  exact ⟨Decidable.not_not.mp hformals, Decidable.not_not.mp hret⟩

theorem ClassDecl.checkDecl_eq_ok {a : Analysis} {c : ClassDecl} :
    c.checkDecl a = .ok () ↔
      c.checkFields a.forest ((a.forest.ancestors c.name).flatMap fun d => d.fields.map (·.name)) [] c.fields
        = .ok () ∧ c.checkMethods a [] c.methods = .ok () := by
  rw [checkDecl, bind_eq_ok]
  constructor
  · rintro ⟨⟨⟩, hfields, hmethods⟩
    exact ⟨hfields, hmethods⟩
  · rintro ⟨hfields, hmethods⟩
    exact ⟨(), hfields, hmethods⟩

theorem ClassDecl.checkDecl_of_mem {a : Analysis} {c : ClassDecl} (h : c.checkDecl a = .ok ()) {m : MethodDecl}
    (hm : m ∈ c.methods) : m.checkDecl a c = .ok () :=
  ((ClassDecl.checkMethods_eq_ok _).mp (ClassDecl.checkDecl_eq_ok.mp h).2).2 m hm

section
variable {Γ : Context} {node : Node} {name : String}

theorem Context.resolve_eq_ok {b : VarBinding} :
    Γ.resolve node name = .ok b ↔ Γ.analysis.scopes.resolve? node.id name = some b := by
  rw [resolve]
  cases Γ.analysis.scopes.resolve? node.id name <;> simp

theorem Context.readVariable_eq_ok {assigned : List String} {ty : Ty} :
    Γ.readVariable assigned node name = .ok ty ↔
      ∃ b, Γ.analysis.scopes.resolve? node.id name = some b ∧ ¬ (b.storage = .local ∧ name ∉ assigned) ∧
        b.ty = ty := by
  rw [readVariable, bind_eq_ok]
  constructor
  · rintro ⟨b, hb, h⟩
    obtain ⟨hassigned, h⟩ := ite_throw_eq_ok.mp h
    exact ⟨b, resolve_eq_ok.mp hb, hassigned, pure_eq_ok.mp h⟩
  · rintro ⟨b, hb, hassigned, hty⟩
    exact ⟨b, resolve_eq_ok.mpr hb, ite_throw_eq_ok.mpr ⟨hassigned, pure_eq_ok.mpr hty⟩⟩

theorem Context.callee_eq_ok {ownerSpan : Span} {owner : Ty} {count : Nat} {signature : MethodSig} :
    Γ.callee node ownerSpan owner name count = .ok signature ↔
      ∃ C, owner = .object C ∧ Γ.analysis.scopes.classMethod? C name = some signature ∧
        signature.formals.length = count := by
  cases owner with
  | object C =>
      simp only [callee, Ty.className?]
      cases hm : Γ.analysis.scopes.classMethod? C name with
      | none => simp [hm]
      | some found =>
          by_cases hcount : found.formals.length = count
          · simp only [hcount, if_true]
            constructor
            · rintro ⟨⟩
              exact ⟨C, rfl, hm, hcount⟩
            · rintro ⟨_, ⟨⟩, hfound, _⟩
              rw [hm] at hfound
              cases hfound
              rfl
          · simp only [hcount, if_false]
            constructor
            · rintro ⟨⟩
            · rintro ⟨_, ⟨⟩, hfound, hsig⟩
              rw [hm] at hfound
              cases hfound
              exact absurd hsig hcount
  | _ => simp [callee, Ty.className?]

end

/-- A program passes if the declarations of its classes, its main statement and the bodies of its methods
do. -/
theorem Program.check_eq_ok {a : Analysis} {p : Program} :
    p.check a = .ok () ↔
      (∀ c ∈ p.classes, c.checkDecl a = .ok ()) ∧ (∃ assigned, p.main.body.check ⟨a, none⟩ [] = .ok assigned) ∧
      ∀ c ∈ p.classes, ∀ m ∈ c.methods, m.checkBody a c.name = .ok () := by
  rw [check, bind_eq_ok]
  constructor
  · rintro ⟨⟨⟩, hdecls, h⟩
    obtain ⟨assigned, hmain, hbodies⟩ := bind_eq_ok.mp h
    refine ⟨forM_eq_ok.mp hdecls, ⟨assigned, hmain⟩, ?_⟩
    intro c hc
    exact forM_eq_ok.mp (forM_eq_ok.mp hbodies c hc)
  · rintro ⟨hdecls, ⟨assigned, hmain⟩, hbodies⟩
    refine ⟨(), forM_eq_ok.mpr hdecls, bind_eq_ok.mpr ⟨assigned, hmain, forM_eq_ok.mpr ?_⟩⟩
    intro c hc
    exact forM_eq_ok.mpr (hbodies c hc)

theorem Program.checkDecl_of_check {a : Analysis} {p : Program} (h : p.check a = .ok ()) {c : ClassDecl}
    (hc : c ∈ p.classes) {m : MethodDecl} (hm : m ∈ c.methods) : m.checkDecl a c = .ok () :=
  ClassDecl.checkDecl_of_mem ((Program.check_eq_ok.mp h).1 c hc) hm

theorem Program.methodNames_nodup {a : Analysis} {p : Program} (h : p.check a = .ok ()) :
    ∀ c ∈ p.classes, (c.methods.map (·.name)).Nodup := by
  intro c hc
  have hmethods := (ClassDecl.checkDecl_eq_ok.mp ((Program.check_eq_ok.mp h).1 c hc)).2
  exact ((ClassDecl.checkMethods_eq_ok _).mp hmethods).1.1

end Demitasse
