import Demitasse.Proofs.Extension
import Demitasse.Proofs.Legibility
import Demitasse.Proofs.OperandTypes

/-! The global names of a compiled program. A module introduces what stands in front of every module, a method table
for every class, the main function and a function for every method. Classes and methods are named by words, which
have no dots; so the names of tables, which start with a dot, those of methods, which have a dot between two words, and
the others, which have none, are told apart, and no name is introduced twice. All that the module refers to is
introduced, at the type that the reference gives to it. -/

namespace Demitasse

/-- The names that the module of a program introduces, in order. -/
def Program.globalNames (p : Program) : List String :=
  runtimeNames ++ p.classes.map (fun c => methodTableName c.name)
    ++ "@main" :: p.classes.flatMap fun c => c.methods.map fun m => "@" ++ c.name ++ "." ++ m.name

theorem dot_not_mem_runtimeNames : ∀ name ∈ "@main" :: runtimeNames, '.' ∉ name.toList := by
  decide

/-- The name of a method's function determines class and method. -/
theorem methodName_inj {C D m n : String} (hm : IsIdentifier m) (hn : IsIdentifier n)
    (h : "@" ++ C ++ "." ++ m = "@" ++ D ++ "." ++ n) : C = D ∧ m = n := by
  have hlist := congrArg String.toList h
  have htext : ∀ E k : String, ("@" ++ E ++ "." ++ k).toList = ('@' :: E.toList) ++ '.' :: k.toList := by simp
  rw [htext, htext] at hlist
  have hlast := String.toList_inj.mp (eq_of_append_dot hm.1.dot_not_mem hn.1.dot_not_mem hlist)
  subst hlast
  refine ⟨?_, rfl⟩
  rw [List.append_cancel_right_eq, List.cons_inj_right, String.toList_inj] at hlist
  exact hlist

theorem methodTableName_ne_methodName {C D m : String} (hD : IsIdentifier D) :
    methodTableName C ≠ "@" ++ D ++ "." ++ m := by
  intro h
  have hlist := congrArg String.toList h
  obtain ⟨c, cs, hname, hc, _⟩ := hD.1
  have hdot : c = '.' := by
    simp only [methodTableName, String.toList_append, hname] at hlist
    exact (List.cons.inj (List.cons.inj hlist).2).1.symm
  rw [hdot] at hc
  exact absurd hc (by decide)

namespace Program

variable {p : Program}

theorem nodup_methodNames (hp : p.Identified) (hclasses : (p.classes.map (·.name)).Nodup)
    (hmethods : ∀ c ∈ p.classes, (c.methods.map (·.name)).Nodup) :
    (p.classes.flatMap fun c => c.methods.map fun m => "@" ++ c.name ++ "." ++ m.name).Nodup := by
  rw [List.nodup_flatMap]
  constructor
  · intro c hc
    refine (hmethods c hc).of_map.map_on fun m hm n hn h => ?_
    exact List.inj_on_of_nodup_map (hmethods c hc) hm hn
      (methodName_inj (hp.methods c hc m hm) (hp.methods c hc n hn) h).2
  · rw [List.nodup_iff_pairwise_ne, List.pairwise_map] at hclasses
    refine hclasses.imp_of_mem fun {c d} hc hd hne name hname hname' => ?_
    obtain ⟨m, hm, rfl⟩ := List.mem_map.mp hname
    obtain ⟨n, hn, heq⟩ := List.mem_map.mp hname'
    exact hne (methodName_inj (hp.methods d hd n hn) (hp.methods c hc m hm) heq).1.symm

/-- No name is introduced twice. -/
theorem nodup_globalNames (hp : p.Identified) (hclasses : (p.classes.map (·.name)).Nodup)
    (hmethods : ∀ c ∈ p.classes, (c.methods.map (·.name)).Nodup) : p.globalNames.Nodup := by
  have htables : (p.classes.map fun c => methodTableName c.name).Nodup := by
    rw [← Function.comp_def methodTableName, ← List.map_map]
    exact hclasses.map fun _ _ h => methodTableName_inj h
  have hnames : (p.classes.map (fun c => methodTableName c.name)
      ++ p.classes.flatMap fun c => c.methods.map fun m => "@" ++ c.name ++ "." ++ m.name).Nodup := by
    refine List.nodup_append.mpr ⟨htables, nodup_methodNames hp hclasses hmethods, ?_⟩
    rintro _ htable _ hmethod heq
    obtain ⟨c, _, rfl⟩ := List.mem_map.mp htable
    obtain ⟨d, hd, hmethod⟩ := List.mem_flatMap.mp hmethod
    obtain ⟨m, _, rfl⟩ := List.mem_map.mp hmethod
    exact methodTableName_ne_methodName (hp.classes d hd) heq
  -- The names without a dot are brought together.
  rw [globalNames, List.perm_middle.nodup_iff, List.append_assoc, ← List.cons_append]
  refine List.nodup_append.mpr ⟨by decide, hnames, ?_⟩
  rintro name hname _ hother rfl
  refine dot_not_mem_runtimeNames name hname ?_
  rcases List.mem_append.mp hother with htable | hmethod
  · obtain ⟨c, _, rfl⟩ := List.mem_map.mp htable
    simp [methodTableName]
  · obtain ⟨c, _, hmethod⟩ := List.mem_flatMap.mp hmethod
    obtain ⟨m, _, rfl⟩ := List.mem_map.mp hmethod
    simp

end Program

section
variable {a : Analysis} {p : Program} {M : IrModule} {m : MethodDecl} {f : IrFunction}

theorem MethodDecl.name_of_lower {className : String} (h : m.lower a className = .ok f) :
    f.sig.name = "@" ++ className ++ "." ++ m.name := by
  rw [MethodDecl.sig_of_lower h, FnSig.name_ofMethod]

theorem map_of_mapM_eq_ok {ε α β γ : Type} {f : α → Except ε β} {g : β → γ} {k : α → γ}
    (hk : ∀ x y, f x = .ok y → g y = k x) {l : List α} {ys : List β} (h : l.mapM f = .ok ys) :
    ys.map g = l.map k := by
  induction l generalizing ys with
  | nil =>
      obtain rfl := pure_eq_ok.mp h
      rfl
  | cons x l ih =>
      rw [List.mapM_cons] at h
      obtain ⟨y, hy, h⟩ := bind_eq_ok.mp h
      obtain ⟨ys, hys, h⟩ := bind_eq_ok.mp h
      obtain rfl := pure_eq_ok.mp h
      rw [List.map_cons, List.map_cons, hk x y hy, ih hys]

/-- The functions of a module, in the order of the methods. -/
theorem Program.functionNames_of_lower (h : p.lower a = .ok M) : M.functions.map (·.sig.name) =
    "@main" :: p.classes.flatMap fun c => c.methods.map fun m => "@" ++ c.name ++ "." ++ m.name := by
  obtain ⟨main, hmain, h⟩ := bind_eq_ok.mp h
  obtain ⟨methods, hmethods, h⟩ := bind_eq_ok.mp h
  obtain rfl := pure_eq_ok.mp h
  obtain ⟨_, _, _, rfl⟩ := MainClass.lower_eq_ok hmain
  have hnames := map_of_mapM_eq_ok (fun c fs hfs => map_of_mapM_eq_ok (fun m f hf => MethodDecl.name_of_lower hf) hfs)
    hmethods
  rw [List.map_cons, List.map_flatten, hnames, List.flatMap_def]

/-- The names that have types are those that are introduced. -/
theorem Analysis.Describes.names_globals (h : a.Describes p) (hM : p.lower a = .ok M) :
    M.globals.map (·.1) = p.globalNames := by
  have hnames : M.globals.map (·.1) =
      runtimeNames ++ M.tables.map (·.name) ++ M.functions.map (·.sig.name) := by
    rw [IrModule.globals, (Program.lower_eq_ok hM).1]
    simp only [List.map_append, List.map_map]
    rfl
  rw [hnames, h.tableNames hM, Program.functionNames_of_lower hM, Program.globalNames]

end

section
variable {a : Analysis} {p : Program} {M : IrModule} {t : MethodTable} {s : FnSig} {f : IrFunction}

/-- The names in the code of a function are those of its operands, so they have types. -/
theorem IrFunction.WellTyped.mem_globals {globals : List (String × OperandTy)} (h : f.WellTyped globals)
    {name : String} (hname : name ∈ f.code.flatMap Line.mentions) : name ∈ globals.map (·.1) := by
  obtain ⟨line, hline, hname⟩ := List.mem_flatMap.mp hname
  cases line with
  | label l => cases hname
  | instr i =>
      obtain ⟨u, hu, hname⟩ := List.mem_flatMap.mp hname
      have hi : i ∈ f.code.instrs := List.mem_filterMap.mpr ⟨_, hline, rfl⟩
      have htype := (h.accepts i hi).1 u hu
      obtain ⟨o, ty⟩ := u
      cases o with
      | global other =>
          obtain rfl := List.mem_singleton.mp hname
          exact List.mem_map.mpr ⟨_, htype, rfl⟩
      | _ => cases hname

/-- The text of a module introduces the names of the program and mentions no others. -/
theorem Analysis.Describes.exists_shows (h : a.Describes p) (hids : (nodeIds p.visits).Nodup) (hp : p.Identified)
    (hcheck : p.check a = .ok ()) (hM : p.lower a = .ok M) :
    ∃ names, names ⊆ p.globalNames ∧ Shows M.render names p.globalNames := by
  obtain ⟨names, hsub, hshows⟩ := IrModule.exists_shows (Program.lower_eq_ok hM).1
    (fun t ht => h.clean_table hids hp hM ht) (h.clean hids hp hM)
  have hnames : p.globalNames = runtimeNames ++ M.tables.map (·.name) ++ M.functions.map (·.sig.name) := by
    rw [h.tableNames hM, Program.functionNames_of_lower hM, Program.globalNames]
  rw [← hnames] at hshows
  have htable : ∀ t ∈ M.tables, t.name ∈ p.globalNames := fun t ht => by
    rw [hnames]
    exact List.mem_append_left _ (List.mem_append_right _ (List.mem_map_of_mem ht))
  have hfunction : ∀ f ∈ M.functions, f.sig.name ∈ p.globalNames := fun f hf => by
    rw [hnames]
    exact List.mem_append_right _ (List.mem_map_of_mem hf)
  refine ⟨_, ?_, hshows⟩
  rw [List.append_subset, List.append_subset]
  refine ⟨⟨?_, fun name hname => ?_⟩, fun name hname => ?_⟩
  · rw [hnames, List.append_assoc]
    exact List.Subset.trans hsub (List.subset_append_left _ _)
  · obtain ⟨t, ht, hname⟩ := List.mem_flatMap.mp hname
    rcases List.mem_cons.mp hname with rfl | hname
    · exact htable t ht
    · obtain ⟨s, hs, rfl⟩ := List.mem_map.mp hname
      obtain ⟨_, _, _, _, _, f, hf, rfl⟩ := h.function_of_entry hM ht hs
      exact hfunction f hf
  · obtain ⟨f, hf, hname⟩ := List.mem_flatMap.mp hname
    rcases List.mem_cons.mp hname with rfl | hname
    · exact hfunction f hf
    · have htyped := h.wellTyped hids hp hcheck hM f (List.mem_append_right _ hf)
      exact h.names_globals hM ▸ htyped.mem_globals hname

theorem Analysis.Describes.nodup_globalNames (h : a.Describes p) (hp : p.Identified) (hcheck : p.check a = .ok ()) :
    p.globalNames.Nodup :=
  Program.nodup_globalNames hp h.names_nodup (Program.methodNames_nodup hcheck)

/-- A text defines one function of the given name, and this is the function. -/
structure IrText.Defines (T : IrText) (name : String) (f : IrFunction) : Prop where
  named : f.sig.name = name
  mem : f ∈ T.functions
  unique : ∀ g ∈ T.functions, g.sig.name = name → g = f

/-- The text of a module defines one function for every method. -/
theorem Analysis.Describes.defines (h : a.Describes p) (hp : p.Identified) (hcheck : p.check a = .ok ())
    (hM : p.lower a = .ok M) {className : String} {m : MethodDecl} (hlower : m.lower a className = .ok f)
    (hf : f ∈ M.functions) :
    IrText.Defines ⟨M.globals, M.preamble.helpers ++ M.functions⟩ ("@" ++ className ++ "." ++ m.name) f := by
  have hname := MethodDecl.name_of_lower hlower
  refine ⟨hname, List.mem_append_right _ hf, fun g hg hsame => ?_⟩
  have hsub : ((M.preamble.helpers ++ M.functions).map (·.sig.name)).Sublist (M.globals.map (·.1)) := by
    rw [IrModule.globals, List.map_append]
    simp only [List.map_append, List.map_map]
    exact .append (.trans (List.sublist_append_right _ _) (List.sublist_append_left _ _)) (.refl _)
  have hnodup := (h.names_globals hM ▸ h.nodup_globalNames hp hcheck).sublist hsub
  exact List.inj_on_of_nodup_map hnodup hg (List.mem_append_right _ hf) (hsame.trans hname.symm)

/-- A method table is addressed as an array of as many entries as it has. -/
theorem Analysis.Describes.elem_of_elementPtr (h : a.Describes p) (hids : (nodeIds p.visits).Nodup) (hp : p.Identified)
    (hcheck : p.check a = .ok ()) (hM : p.lower a = .ok M) (ht : t ∈ M.tables)
    (hf : f ∈ M.preamble.helpers ++ M.functions) {result : Reg} {elem : IrTy} {indices : List Operand}
    (hi : .elementPtr result elem (.global t.name) indices ∈ f.code.instrs) :
    elem = .array t.entries.length .address := by
  have huse : (t.name, .value (.ptr elem)) ∈ M.globals :=
    ((h.wellTyped hids hp hcheck hM f hf).accepts _ hi).1 _ List.mem_cons_self
  have htable : (t.name, .value (.ptr (.array t.entries.length .address))) ∈ M.globals :=
    List.mem_append_left _ (List.mem_append_right _ (List.mem_map.mpr ⟨t, ht, rfl⟩))
  have hnodup := h.nodup_globalNames hp hcheck
  rw [← h.names_globals hM] at hnodup
  cases List.inj_on_of_nodup_map hnodup huse htable rfl
  rfl

end

theorem IrTy.text_table (n : Nat) : (array n address).text = "[" ++ toString n ++ " x i8*]" := by
  rw [text, String.append_assoc, String.append_assoc]
  rfl

theorem MethodTable.render_eq (t : MethodTable) : t.render = t.name ++ " = global [" ++ toString t.entries.length
    ++ " x i8*] [" ++ ", ".intercalate (t.entries.map FnSig.tableEntry) ++ "]\n" := by
  apply String.toList_inj.mp
  simp [render, Written.methodTable, IrTy.text_table, Written.commas]

theorem FnSig.tableEntry_eq {s : FnSig} {C m : String} (hname : s.name = "@" ++ C ++ "." ++ m) :
    s.tableEntry = "i8* bitcast (" ++ s.ret.text ++ " (" ++ ", ".intercalate (s.params.map (·.1.text)) ++ ")* @" ++ C
      ++ "." ++ m ++ " to i8*)" := by
  have hmark : ")* @" = ")" ++ ("*" ++ (" " ++ "@")) := rfl
  unfold tableEntry pointerText FnTy.pointerText FnTy.text ty
  rw [hname, hmark, List.map_map]
  simp only [String.append_assoc, Function.comp_def]

theorem IrFunction.exists_render {f : IrFunction} {C m : String} (hname : f.sig.name = "@" ++ C ++ "." ++ m) :
    ∃ body, f.render = "define " ++ f.sig.ret.text ++ " @" ++ C ++ "." ++ m ++ "("
      ++ ", ".intercalate (f.sig.params.map fun p => p.1.text ++ " %" ++ p.2) ++ ") \x7b\n" ++ body := by
  refine ⟨String.join (f.code.map Line.render) ++ Written.definitionEnd, ?_⟩
  have hmark : " @" = " " ++ "@" := rfl
  unfold render Written.definition Written.commas
  rw [hname, hmark]
  simp only [String.append_assoc]

/-- The text of a compiled program introduces every global name once: those that stand in front of every module, a
method table for every class besides the main class, the main function and a function for every method. It mentions no
other global name. A method table is written as an array of as many entries as it has, and is addressed as such in
all functions; every entry casts a function of the module from the type that the function is defined with. -/
theorem globals_closed_and_unambiguous {source ir : String} (h : compile source = .ok ir) :
    ∃ (p : Program) (M : IrModule), parse source = .ok p ∧ p.compile true = .ok M ∧ ir = M.render ∧
      introductions ir.toList =
        ["@calloc", "@printf", "@exit", "@_cint", "@_cOOB", "@print_int", "@throw_oob"]
          ++ p.classes.map (fun c => "@." ++ c.name ++ "_vtable")
          ++ "@main" :: p.classes.flatMap (fun c => c.methods.map fun m => "@" ++ c.name ++ "." ++ m.name) ∧
      (introductions ir.toList).Nodup ∧
      (∀ name ∈ mentions ir.toList, name ∈ introductions ir.toList) ∧
      M.tables.map (·.name) = p.classes.map (fun c => "@." ++ c.name ++ "_vtable") ∧
      ∀ t ∈ M.tables,
        t.render = t.name ++ " = global [" ++ toString t.entries.length ++ " x i8*] ["
          ++ ", ".intercalate (t.entries.map FnSig.tableEntry) ++ "]\n" ∧
        (∀ s ∈ t.entries, ∃ K ∈ p.classes, ∃ m ∈ K.methods, ∃ f ∈ M.functions, f.sig = s ∧
          s.tableEntry = "i8* bitcast (" ++ f.sig.ret.text ++ " (" ++ ", ".intercalate (f.sig.params.map (·.1.text))
            ++ ")* @" ++ K.name ++ "." ++ m.name ++ " to i8*)" ∧
          ∃ body, f.render = "define " ++ f.sig.ret.text ++ " @" ++ K.name ++ "." ++ m.name ++ "("
            ++ ", ".intercalate (f.sig.params.map fun p => p.1.text ++ " %" ++ p.2) ++ ") \x7b\n" ++ body) ∧
        ∀ f ∈ M.preamble.helpers ++ M.functions, ∀ result elem indices,
          .elementPtr result elem (.global t.name) indices ∈ f.code.instrs →
          elem.text = "[" ++ toString t.entries.length ++ " x i8*]" := by
  obtain ⟨p, hparse, hcompile⟩ := bind_eq_ok.mp h
  obtain ⟨M, hmodule, hir⟩ := bind_eq_ok.mp hcompile
  obtain rfl := pure_eq_ok.mp hir
  obtain ⟨a, ha, hM⟩ := bind_eq_ok.mp hmodule
  rw [if_pos rfl] at hM
  obtain ⟨_, hcheck, hM⟩ := bind_eq_ok.mp hM
  rw [mapError_eq_ok] at hcheck hM
  have h := Analysis.describes ha
  have hids := nodeIds_nodup_of_parse hparse
  have hp := identified_of_parse hparse
  obtain ⟨names, hsub, hshows⟩ := h.exists_shows hids hp hcheck hM
  refine ⟨p, M, hparse, hmodule, rfl, hshows.introductions, ?_, ?_, h.tableNames hM, fun t ht => ⟨?_, ?_, ?_⟩⟩
  · rw [hshows.introductions]
    exact h.nodup_globalNames hp hcheck
  · rw [hshows.introductions, hshows.mentions]
    exact fun name hname => hsub hname
  · exact t.render_eq
  · intro s hs
    obtain ⟨K, hK, m, hm, hname, f, hf, rfl⟩ := h.function_of_entry hM ht hs
    exact ⟨K, hK, m, hm, f, hf, rfl, FnSig.tableEntry_eq hname, IrFunction.exists_render hname⟩
  · intro f hf result elem indices hi
    rw [h.elem_of_elementPtr hids hp hcheck hM ht hf hi, IrTy.text_table]

/-- A class whose subclass inherits one of its methods, overrides another and adds a third. -/
def inheritedSource : String :=
  "class M\x7bpublic static void main(String[]a)\x7bSystem.out.println(new B().f());\x7d\x7d " ++
    "class A\x7bint f()\x7breturn 0;\x7dint g()\x7breturn 4;\x7d\x7d " ++
    "class B extends A\x7bint f()\x7breturn this.h();\x7dint h()\x7breturn 1;\x7d\x7d"

theorem globals_closed_and_unambiguous_inherited : ∃ ir, compile inheritedSource = .ok ir ∧
    introductions ir.toList =
      ["@calloc", "@printf", "@exit", "@_cint", "@_cOOB", "@print_int", "@throw_oob", "@.A_vtable", "@.B_vtable",
        "@main", "@A.f", "@A.g", "@B.f", "@B.h"] ∧
    (introductions ir.toList).Nodup ∧ (∀ name ∈ mentions ir.toList, name ∈ introductions ir.toList) ∧
    ∃ M : IrModule, ir = M.render ∧ M.tables.map (·.name) = ["@.A_vtable", "@.B_vtable"] ∧
      ∀ t ∈ M.tables, ∀ s ∈ t.entries, ∃ f ∈ M.functions, f.sig = s := by
  have hvalid : (isValid inheritedSource).toOption = some true := by decide +kernel
  have hshape : (parse inheritedSource).toOption.map (·.classes.map fun c => (c.name, c.methods.map (·.name))) =
      some [("A", ["f", "g"]), ("B", ["f", "h"])] := by decide +kernel
  obtain ⟨ir, hir⟩ := compile_of_isValid hvalid
  obtain ⟨p, M, hparse, _, hM, hintroductions, hnodup, hclosed, htables, hall⟩ := globals_closed_and_unambiguous hir
  rw [hparse] at hshape
  have hclasses := Option.some.inj hshape
  have htableNames : p.classes.map (fun c => "@." ++ c.name ++ "_vtable") = ["@.A_vtable", "@.B_vtable"] := by
    have hnames := congrArg (List.map fun e => "@." ++ e.1 ++ "_vtable") hclasses
    rw [List.map_map] at hnames
    exact hnames
  have hmethodNames : p.classes.flatMap (fun c => c.methods.map fun m => "@" ++ c.name ++ "." ++ m.name) =
      ["@A.f", "@A.g", "@B.f", "@B.h"] := by
    have hnames := congrArg (List.flatMap fun e => e.2.map fun m => "@" ++ e.1 ++ "." ++ m) hclasses
    rw [List.flatMap_map] at hnames
    simp only [List.map_map] at hnames
    exact hnames
  refine ⟨ir, hir, ?_, hnodup, hclosed, M, hM, htables.trans htableNames, fun t ht s hs => ?_⟩
  · rw [hintroductions, htableNames, hmethodNames]
    rfl
  · obtain ⟨_, _, _, _, f, hf, hsig, _⟩ := (hall t ht).2.1 s hs
    exact ⟨f, hf, hsig⟩

end Demitasse
