import Mathlib.Data.List.Induction
import Mathlib.Data.List.Nodup
import Mathlib.Logic.Relation
import Demitasse.Proofs.Lineage

/-!
Inheritance. A program has a forest exactly if its class names differ from each other and from that of the main
class and every superclass is declared in front of its subclasses. The parent of a class is then the class that it
extends, and going up from a class one always gets to a root.
-/

namespace Demitasse.Forest

/-- A class of the name `D` is declared to extend one of the name `C`. -/
def Extends (F : Forest) (D C : String) : Prop :=
  ∃ d ∈ F.classes, d.name = D ∧ d.superName = some C

/-- A class, its superclass, the superclass of that one and so on, up to a class that has none. -/
inductive Ascent (F : Forest) : ClassDecl → List ClassDecl → Prop
  | root {c : ClassDecl} : c ∈ F.classes → c.superName = none → F.Ascent c [c]
  | step {c d : ClassDecl} {L : List ClassDecl} :
      c ∈ F.classes → c.superName = some d.name → F.Ascent d L → F.Ascent c (c :: L)

theorem getElem?_concat_eq_some {cs : List ClassDecl} {c d : ClassDecl} {i : Nat} :
    (cs ++ [c])[i]? = some d ↔ cs[i]? = some d ∨ i = cs.length ∧ c = d := by
  rcases Nat.lt_trichotomy i cs.length with hlt | rfl | hgt
  · simp [List.getElem?_append_left hlt, Nat.ne_of_lt hlt]
  · simp
  · have hle : (cs ++ [c]).length ≤ i := by
      rw [List.length_append]
      exact hgt
    rw [List.getElem?_eq_none hle, List.getElem?_eq_none (Nat.le_of_lt hgt)]
    simp [Nat.ne_of_gt hgt]

/-- In order means that names differ and that every superclass is named by a class in front. -/
theorem ordered_reverse_iff (cs : List ClassDecl) :
    Ordered cs.reverse ↔ (cs.map (·.name)).Nodup ∧
      ∀ i c, cs[i]? = some c → ∀ s, c.superName = some s → s ∈ (cs.take i).map (·.name) := by
  induction cs using List.reverseRecOn with
  | nil => simp [Ordered]
  | append_singleton cs c ih =>
      rw [List.reverse_append, List.reverse_singleton, List.singleton_append, Ordered, ih]
      simp only [List.map_reverse, List.mem_reverse, List.map_append, List.map_cons, List.map_nil,
        List.nodup_append, List.nodup_singleton]
      constructor
      · rintro ⟨hnew, hsuper, hnodup, hearlier⟩
        refine ⟨⟨hnodup, trivial, ?_⟩, ?_⟩
        · rintro name hname _ hc rfl
          exact hnew (List.mem_singleton.mp hc ▸ hname)
        · intro i d hd s hs
          rcases getElem?_concat_eq_some.mp hd with hd | ⟨rfl, rfl⟩
          · have hi : i ≤ cs.length := Nat.le_of_lt (List.getElem?_eq_some_iff.mp hd).1
            rw [List.take_append_of_le_length hi]
            exact hearlier i d hd s hs
          · rw [List.take_left]
            exact hsuper s hs
      · rintro ⟨⟨hnodup, -, hnew⟩, hearlier⟩
        refine ⟨fun hmem => hnew _ hmem _ (List.mem_singleton_self _) rfl, fun s hs => ?_, hnodup, ?_⟩
        · have hmem := hearlier cs.length c (getElem?_concat_eq_some.mpr (.inr ⟨rfl, rfl⟩)) s hs
          rwa [List.take_left] at hmem
        · intro i d hd s hs
          have hi : i ≤ cs.length := Nat.le_of_lt (List.getElem?_eq_some_iff.mp hd).1
          have hmem := hearlier i d (getElem?_concat_eq_some.mpr (.inl hd)) s hs
          rwa [List.take_append_of_le_length hi] at hmem

/-- Declarations in order pass both checks, resumed behind the classes `rev`. -/
theorem checks_of_ordered {mainName : String} {declared : List String} (cs : List ClassDecl) :
    ∀ rev : List ClassDecl, Ordered (cs.reverse ++ rev) → (∀ c ∈ cs, c.name ≠ mainName) →
      (∀ c ∈ cs.reverse ++ rev, c.name ∈ declared) →
      checkNames mainName (rev.map (·.name)) cs = .ok () ∧
        checkSupers declared (rev.map (·.name)) cs = .ok () := by
  induction cs with
  | nil => exact fun _ _ _ _ => ⟨rfl, rfl⟩
  | cons c cs ih =>
      intro rev hordered hmain hdeclared
      rw [List.reverse_cons, List.append_assoc, List.singleton_append] at hordered hdeclared
      obtain ⟨hc, hmain⟩ := List.forall_mem_cons.mp hmain
      obtain ⟨hnew, hsuper, _⟩ := hordered.of_append
      obtain ⟨hnames, hsupers⟩ := ih (c :: rev) hordered hmain hdeclared
      have hpass : checkSuper declared (rev.map (·.name)) c = .ok () := by
        unfold checkSuper
        cases hs : c.superName with
        | none => rfl
        | some s =>
            have hmem := hsuper s hs
            have hself : s ≠ c.name := fun heq => hnew (heq ▸ hmem)
            obtain ⟨d, hd, rfl⟩ := List.mem_map.mp hmem
            have hd' : d.name ∈ declared := hdeclared d (by simp [hd])
            simp [hself, hd', hmem]
      refine ⟨?_, ?_⟩
      · unfold checkNames
        rw [if_neg hc, if_neg hnew]
        exact hnames
      · unfold checkSupers
        exact bind_eq_ok.mpr ⟨(), hpass, hsupers⟩

/-- The programs that have a forest, and the forest that they have. -/
theorem ofProgram_eq_ok_iff {p : Program} {F : Forest} :
    ofProgram p = .ok F ↔
      F = ⟨p.classes⟩ ∧ Ordered p.classes.reverse ∧ ∀ c ∈ p.classes, c.name ≠ p.main.name := by
  refine ⟨ofProgram_eq_ok, ?_⟩
  rintro ⟨rfl, hordered, hmain⟩
  have hdeclared : ∀ c ∈ p.classes.reverse ++ [], c.name ∈ p.classes.map (·.name) := by
    intro c hc
    exact List.mem_map_of_mem (by simpa using hc)
  obtain ⟨hnames, hsupers⟩ := checks_of_ordered p.classes [] (by simpa using hordered) hmain hdeclared
  exact bind_eq_ok.mpr ⟨(), hnames, bind_eq_ok.mpr ⟨(), hsupers, rfl⟩⟩

section
variable {F : Forest} {C D S : String} {c d : ClassDecl} {L : List ClassDecl}

theorem nodup_classNames (h : Ordered F.classes.reverse) : (F.classes.map (·.name)).Nodup :=
  ((ordered_reverse_iff _).mp h).1

theorem find?_eq_some_iff (h : Ordered F.classes.reverse) : F.find? C = some c ↔ c ∈ F.classes ∧ c.name = C := by
  rw [find?]
  constructor
  · intro hfind
    exact ⟨List.mem_of_find?_eq_some hfind, by simpa using List.find?_some hfind⟩
  · rintro ⟨hc, rfl⟩
    obtain ⟨d, hd⟩ : ∃ d, F.classes.find? (fun d => d.name = c.name) = some d := by
      rw [← Option.isSome_iff_exists, List.find?_isSome]
      exact ⟨c, hc, decide_eq_true rfl⟩
    have hname : d.name = c.name := by simpa using List.find?_some hd
    rw [hd, List.inj_on_of_nodup_map (nodup_classNames h) (List.mem_of_find?_eq_some hd) hc hname]

theorem contains_iff_exists : F.contains C = true ↔ ∃ c ∈ F.classes, c.name = C := by
  simp [contains, find?]

theorem lineage_of_mem (h : Ordered F.classes.reverse) (hc : c ∈ F.classes) :
    F.lineage c.name = c :: c.superName.elim [] F.lineage :=
  lineageIn_of_mem h (List.mem_reverse.mpr hc)

/-- The superclass of a class in order is declared. -/
theorem exists_super (h : Ordered F.classes.reverse) (hc : c ∈ F.classes) (hs : c.superName = some S) :
    ∃ d ∈ F.classes, d.name = S := by
  have hmem := h.super_mem (List.mem_reverse.mpr hc) hs
  rw [List.map_reverse, List.mem_reverse] at hmem
  exact List.mem_map.mp hmem

/-- The parent of a class is the class of the name that it extends. -/
theorem parent?_of_mem (h : Ordered F.classes.reverse) (hc : c ∈ F.classes) :
    F.parent? c.name = c.superName.bind F.find? := by
  rw [parent?, ancestors, lineage_of_mem h hc, List.tail_cons]
  cases hs : c.superName with
  | none => rfl
  | some s =>
      obtain ⟨d, hd, rfl⟩ := exists_super h hc hs
      rw [Option.elim_some, lineage_of_mem h hd, List.head?_cons, Option.bind_some,
        (find?_eq_some_iff h).mpr ⟨hd, rfl⟩]

theorem parent?_eq_some_iff (h : Ordered F.classes.reverse) (hc : c ∈ F.classes) :
    F.parent? c.name = some d ↔ d ∈ F.classes ∧ c.superName = some d.name := by
  rw [parent?_of_mem h hc, Option.bind_eq_some_iff]
  constructor
  · rintro ⟨s, hs, hd⟩
    obtain ⟨hmem, rfl⟩ := (find?_eq_some_iff h).mp hd
    exact ⟨hmem, hs⟩
  · rintro ⟨hmem, hs⟩
    exact ⟨d.name, hs, (find?_eq_some_iff h).mpr ⟨hmem, rfl⟩⟩

theorem Ascent.subset (hL : F.Ascent c L) : L ⊆ F.classes := by
  induction hL with
  | root hc _ => exact List.cons_subset.mpr ⟨hc, List.nil_subset _⟩
  | step hc _ _ ih => exact List.cons_subset.mpr ⟨hc, ih⟩

/-- The only way up from a class goes along its lineage. -/
theorem ascent_iff (h : Ordered F.classes.reverse) : F.Ascent c L ↔ c ∈ F.classes ∧ L = F.lineage c.name := by
  constructor
  · intro hL
    induction hL with
    | root hc hs => exact ⟨hc, by rw [lineage_of_mem h hc, hs, Option.elim_none]⟩
    | step hc hs _ ih => exact ⟨hc, by rw [lineage_of_mem h hc, hs, Option.elim_some, ih.2]⟩
  · rintro ⟨hc, hL⟩
    induction L generalizing c with
    | nil =>
        rw [lineage_of_mem h hc] at hL
        cases hL
    | cons e L ih =>
        rw [lineage_of_mem h hc] at hL
        cases hs : c.superName with
        | none =>
            rw [hs] at hL
            cases hL
            exact .root hc hs
        | some s =>
            rw [hs] at hL
            obtain ⟨d, hd, rfl⟩ := exists_super h hc hs
            obtain ⟨rfl, rfl⟩ := List.cons.inj hL
            exact .step hc hs (ih hd rfl)

/-- A way up ends at a root. -/
theorem Ascent.exists_root (hL : F.Ascent c L) : ∃ r ∈ F.roots, L.getLast? = some r := by
  induction hL with
  | @root c hc hs => exact ⟨c, List.mem_filter.mpr ⟨hc, by rw [hs]; rfl⟩, rfl⟩
  | @step c d L _ _ hL ih =>
      obtain ⟨r, hr, hlast⟩ := ih
      refine ⟨r, hr, ?_⟩
      cases L with
      | nil => cases hL
      | cons e L => rw [List.getLast?_cons_cons, hlast]

theorem Extends.exists_lineage (h : Ordered F.classes.reverse) (hext : F.Extends D C) :
    ∃ d ∈ F.classes, F.lineage D = d :: F.lineage C := by
  obtain ⟨d, hd, rfl, hs⟩ := hext
  exact ⟨d, hd, by rw [lineage_of_mem h hd, hs, Option.elim_some]⟩

/-- Every step up shortens the lineage. -/
theorem length_lineage_lt (h : Ordered F.classes.reverse) (hext : Relation.TransGen F.Extends D C) :
    (F.lineage C).length < (F.lineage D).length := by
  have hstep : ∀ {D C : String}, F.Extends D C → (F.lineage C).length < (F.lineage D).length := by
    intro D C hext
    obtain ⟨d, _, hlineage⟩ := hext.exists_lineage h
    rw [hlineage, List.length_cons]
    exact Nat.lt_succ_self _
  induction hext with
  | single hext => exact hstep hext
  | tail _ hext ih => exact Nat.lt_trans (hstep hext) ih

end

end Demitasse.Forest
