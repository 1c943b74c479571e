import Mathlib.Tactic.SplitIfs
import Demitasse.Class.Forest
import Demitasse.Proofs.Outcome

/-! The lineages of a forest. In declarations that are listed latest first, every class has a name of
its own and its superclass stands behind it, so a lineage is found by one pass over the list: it starts
with the class itself, goes on with the lineage of its superclass, and the lineage of each of its
members is one of its ends. -/

namespace Demitasse.Forest

/-- Declarations, latest first, in which no two classes share a name and every superclass is declared
before its subclasses. -/
def Ordered : List ClassDecl → Prop
  | [] => True
  | c :: earlier =>
    c.name ∉ earlier.map (·.name) ∧ (∀ s, c.superName = some s → s ∈ earlier.map (·.name)) ∧
      Ordered earlier

theorem checkSuper_eq_ok {declared earlier : List String} {c : ClassDecl}
    (h : checkSuper declared earlier c = .ok ()) (s : String) (hs : c.superName = some s) :
    s ∈ earlier := by
  unfold checkSuper at h
  rw [hs] at h
  simp only at h
  split_ifs at h with hself hdeclared hearlier
  exact hearlier

/-- The two passes over the declarations, resumed behind the classes `rev`. -/
theorem ordered_of_checks {mainName : String} {declared : List String} (cs : List ClassDecl) :
    ∀ rev : List ClassDecl, Ordered rev → checkNames mainName (rev.map (·.name)) cs = .ok () →
      checkSupers declared (rev.map (·.name)) cs = .ok () →
      Ordered (cs.reverse ++ rev) ∧ ∀ c ∈ cs, c.name ≠ mainName := by
  induction cs with
  | nil => exact fun rev hrev _ _ => ⟨hrev, fun c hc => absurd hc List.not_mem_nil⟩
  | cons c cs ih =>
      intro rev hrev hnames hsupers
      unfold checkNames at hnames
      split_ifs at hnames with hmain hseen
      unfold checkSupers at hsupers
      obtain ⟨_, hsuper, hsupers⟩ := bind_eq_ok.mp hsupers
      obtain ⟨hordered, hne⟩ := ih (c :: rev) ⟨hseen, checkSuper_eq_ok hsuper, hrev⟩ hnames hsupers
      refine ⟨by simpa using hordered, ?_⟩
      intro d hd
      rcases List.mem_cons.mp hd with rfl | hd
      · exact hmain
      · exact hne d hd

/-- A program has a forest only if its declarations are in order and none is named like the main
class. -/
theorem ofProgram_eq_ok {p : Program} {F : Forest} (h : ofProgram p = .ok F) :
    F = ⟨p.classes⟩ ∧ Ordered p.classes.reverse ∧ ∀ c ∈ p.classes, c.name ≠ p.main.name := by
  unfold ofProgram at h
  obtain ⟨_, hnames, h⟩ := bind_eq_ok.mp h
  obtain ⟨_, hsupers, h⟩ := bind_eq_ok.mp h
  obtain ⟨hordered, hne⟩ := ordered_of_checks p.classes [] trivial hnames hsupers
  exact ⟨(pure_eq_ok.mp h).symm, by simpa using hordered, hne⟩

section
variable {rev : List ClassDecl} {name : String} {c : ClassDecl}

theorem Ordered.tail {earlier : List ClassDecl} (h : Ordered (c :: earlier)) : Ordered earlier :=
  h.2.2

theorem Ordered.of_append {later earlier : List ClassDecl} (h : Ordered (later ++ earlier)) :
    Ordered earlier := by
  induction later with
  | nil => exact h
  | cons c later ih => exact ih h.tail

theorem Ordered.nodup (h : Ordered rev) : (rev.map (·.name)).Nodup := by
  induction rev with
  | nil => exact List.nodup_nil
  | cons c earlier ih => exact List.nodup_cons.mpr ⟨h.1, ih h.tail⟩

theorem mem_of_mem_lineageIn (rev : List ClassDecl) :
    ∀ {name : String} {c : ClassDecl}, c ∈ lineageIn rev name → c ∈ rev := by
  induction rev with
  | nil => exact fun h => absurd h List.not_mem_nil
  | cons d earlier ih =>
      intro name c h
      unfold lineageIn at h
      split_ifs at h with hname
      · rcases List.mem_cons.mp h with rfl | h
        · exact List.mem_cons_self
        · cases hs : d.superName with
          | none => rw [hs] at h; exact absurd h List.not_mem_nil
          | some s => rw [hs] at h; exact List.mem_cons_of_mem _ (ih h)
      · exact List.mem_cons_of_mem _ (ih h)

/-- Only a class that is not declared has an empty lineage. -/
theorem lineageIn_eq_nil (rev : List ClassDecl) (name : String) :
    lineageIn rev name = [] ↔ name ∉ rev.map (·.name) := by
  induction rev with
  | nil => simp [lineageIn]
  | cons d earlier ih =>
      unfold lineageIn
      by_cases hname : d.name = name
      · simp [hname]
      · have hname' : ¬ name = d.name := fun h => hname h.symm
        rw [if_neg hname, ih]
        simp [hname']

/-- A lineage starts with the class that it belongs to. -/
theorem head?_lineageIn (rev : List ClassDecl) (name : String) :
    (lineageIn rev name).head? = rev.find? fun c => c.name = name := by
  induction rev with
  | nil => rfl
  | cons d earlier ih =>
      unfold lineageIn
      by_cases hname : d.name = name
      · simp [hname]
      · rw [if_neg hname, ih]
        simp [hname]

theorem lineageIn_cons_of_ne {d : ClassDecl} {earlier : List ClassDecl} (hne : d.name ≠ name) :
    lineageIn (d :: earlier) name = lineageIn earlier name := by
  rw [lineageIn, if_neg hne]

/-- A later declaration does not change the lineages of earlier ones. -/
theorem lineageIn_cons_of_mem {d : ClassDecl} {earlier : List ClassDecl} (h : Ordered (d :: earlier))
    (hmem : name ∈ earlier.map (·.name)) : lineageIn (d :: earlier) name = lineageIn earlier name := by
  apply lineageIn_cons_of_ne
  rintro rfl
  exact h.1 hmem

theorem Ordered.super_mem (h : Ordered rev) (hc : c ∈ rev) {s : String} (hs : c.superName = some s) :
    s ∈ rev.map (·.name) := by
  induction rev with
  | nil => exact absurd hc List.not_mem_nil
  | cons d earlier ih =>
      rcases List.mem_cons.mp hc with rfl | hmem
      · exact List.mem_cons_of_mem _ (h.2.1 s hs)
      · exact List.mem_cons_of_mem _ (ih h.tail hmem)

/-- Behind a class stands the lineage of its superclass. -/
theorem lineageIn_of_mem (h : Ordered rev) (hc : c ∈ rev) :
    lineageIn rev c.name = c :: c.superName.elim [] (lineageIn rev) := by
  induction rev with
  | nil => exact absurd hc List.not_mem_nil
  | cons d earlier ih =>
      rcases List.mem_cons.mp hc with rfl | hmem
      · rw [lineageIn, if_pos rfl]
        cases hs : c.superName with
        | none => rfl
        | some s => exact congrArg _ (lineageIn_cons_of_mem h (h.2.1 s hs)).symm
      · rw [lineageIn_cons_of_mem h (List.mem_map_of_mem hmem), ih h.tail hmem]
        cases hs : c.superName with
        | none => rfl
        | some s => exact congrArg _ (lineageIn_cons_of_mem h (h.tail.super_mem hmem hs)).symm

/-- The lineage of a member of a lineage is an end of it. -/
theorem lineageIn_suffix (h : Ordered rev) :
    ∀ {name : String} {c : ClassDecl}, c ∈ lineageIn rev name → lineageIn rev c.name <:+ lineageIn rev name := by
  induction rev with
  | nil => exact fun hc => absurd hc List.not_mem_nil
  | cons d earlier ih =>
      intro name c hc
      by_cases hname : d.name = name
      · subst hname
        rw [lineageIn_of_mem h List.mem_cons_self] at hc ⊢
        rcases List.mem_cons.mp hc with rfl | hc
        · simp only [lineageIn_of_mem h List.mem_cons_self, List.suffix_refl]
        · cases hs : d.superName with
          | none => rw [hs] at hc; exact absurd hc List.not_mem_nil
          | some s =>
              rw [hs] at hc
              simp only [Option.elim] at hc ⊢
              rw [lineageIn_cons_of_mem h (h.2.1 s hs)] at hc ⊢
              rw [lineageIn_cons_of_mem h (List.mem_map_of_mem (mem_of_mem_lineageIn earlier hc))]
              exact (ih h.tail hc).trans (List.suffix_cons _ _)
      · rw [lineageIn_cons_of_ne hname] at hc
        rw [lineageIn_cons_of_mem h (List.mem_map_of_mem (mem_of_mem_lineageIn earlier hc)),
          lineageIn_cons_of_ne hname]
        exact ih h.tail hc

end

section
variable {F : Forest} {A B C D : String}

theorem contains_iff : F.contains C = true ↔ F.lineage C ≠ [] := by
  rw [ne_eq, lineage, lineageIn_eq_nil, Classical.not_not, contains, find?]
  simp

theorem name_of_lineage {c : ClassDecl} {ancestors : List ClassDecl} (h : F.lineage C = c :: ancestors) :
    c.name = C := by
  have hhead := head?_lineageIn F.classes.reverse C
  rw [← lineage, h] at hhead
  simpa using List.find?_some hhead.symm

/-- A class inherits from the members of its lineage, and from no others. -/
theorem isSubclass_iff : F.isSubclass D C = true ↔ ∃ c ∈ F.lineage D, c.name = C := by
  cases hD : F.lineage D with
  | nil =>
      have hnot : F.contains D = false := by
        rw [← Bool.not_eq_true, contains_iff, hD]
        simp
      simp [isSubclass, hnot]
  | cons c ancestors =>
      have hcontains : F.contains D = true := by
        rw [contains_iff, hD]
        simp
      simp [isSubclass, hcontains, Forest.ancestors, hD, name_of_lineage hD]

/-- The lineage of a class is an end of the lineages of its subclasses. -/
theorem lineage_suffix (h : Ordered F.classes.reverse) (hsub : F.isSubclass D C = true) :
    F.lineage C <:+ F.lineage D := by
  obtain ⟨c, hc, rfl⟩ := isSubclass_iff.mp hsub
  exact lineageIn_suffix h hc

theorem isSubclass_self (h : F.contains C = true) : F.isSubclass C C = true := by
  obtain ⟨c, ancestors, hL⟩ := List.exists_cons_of_ne_nil (contains_iff.mp h)
  exact isSubclass_iff.mpr ⟨c, hL ▸ List.mem_cons_self, name_of_lineage hL⟩

theorem isSubclass_trans (hordered : Ordered F.classes.reverse) (hAB : F.isSubclass A B = true)
    (hBC : F.isSubclass B C = true) : F.isSubclass A C = true := by
  obtain ⟨c, hc, hname⟩ := isSubclass_iff.mp hBC
  exact isSubclass_iff.mpr ⟨c, (lineage_suffix hordered hAB).subset hc, hname⟩

end

end Demitasse.Forest
