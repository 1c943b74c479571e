import Mathlib.Data.List.TakeWhile
import Demitasse.Proofs.Inheritance

/-!
Families. Going up follows superclasses one by one, and going down collects the classes that extend one; both see
the same relation. A class is a subclass of another if it gets there by any number of steps up, and the family of
a class lists its subclasses, each once and behind the one that it extends. The families of the roots list all
classes.
-/

namespace Demitasse.Forest

section
variable {F : Forest} {C D S : String} {c : ClassDecl}

theorem Extends.contains (hext : F.Extends D C) : F.contains D = true := by
  obtain ⟨d, hd, hname, _⟩ := hext
  exact contains_iff_exists.mpr ⟨d, hd, hname⟩

/-- A class extends no more than one. -/
theorem extends_rightUnique (hnodup : (F.classes.map (·.name)).Nodup) : Relator.RightUnique F.Extends := by
  rintro D C C' ⟨d, hd, rfl, hC⟩ ⟨e, he, hname, hC'⟩
  obtain rfl := List.inj_on_of_nodup_map hnodup he hd hname
  exact Option.some.inj (hC.symm.trans hC')

theorem isSubclass_of_extends (h : Ordered F.classes.reverse) (hext : F.Extends D C) :
    F.isSubclass D C = true := by
  obtain ⟨d, hd, rfl, hs⟩ := hext
  obtain ⟨c, hc, rfl⟩ := exists_super h hd hs
  refine isSubclass_iff.mpr ⟨c, ?_, rfl⟩
  rw [lineage_of_mem h hd, hs, Option.elim_some, lineage_of_mem h hc]
  exact List.mem_cons_of_mem _ List.mem_cons_self

/-- A class is a subclass of those to which it gets by steps up. -/
theorem isSubclass_iff_reflTransGen (h : Ordered F.classes.reverse) :
    F.isSubclass D C = true ↔ F.contains D = true ∧ Relation.ReflTransGen F.Extends D C := by
  constructor
  · intro hsub
    obtain ⟨c, hc, rfl⟩ := isSubclass_iff.mp hsub
    refine ⟨contains_iff.mpr (List.ne_nil_of_mem hc), ?_⟩
    clear hsub
    -- The induction goes along the lineage of `D`, whose tail is the lineage of what `D` extends.
    generalize hL : F.lineage D = L at hc
    induction L generalizing D with
    | nil => exact absurd hc List.not_mem_nil
    | cons d L ih =>
        obtain rfl := name_of_lineage hL
        have hd : d ∈ F.classes := by
          apply List.mem_reverse.mp
          apply mem_of_mem_lineageIn F.classes.reverse
          exact hL ▸ List.mem_cons_self
        rcases List.mem_cons.mp hc with rfl | hc
        · exact .refl
        · rw [lineage_of_mem h hd] at hL
          obtain ⟨_, hL⟩ := List.cons.inj hL
          cases hs : d.superName with
          | none =>
              rw [hs] at hL
              rw [← hL] at hc
              exact absurd hc List.not_mem_nil
          | some S =>
              rw [hs] at hL
              exact .head ⟨d, hd, rfl, hs⟩ (ih hL hc)
  · rintro ⟨hD, hup⟩
    induction hup with
    | refl => exact isSubclass_self hD
    | tail _ hext ih => exact isSubclass_trans h ih (isSubclass_of_extends h hext)

theorem isSubclass_antisymm (h : Ordered F.classes.reverse) (hDC : F.isSubclass D C = true)
    (hCD : F.isSubclass C D = true) : D = C := by
  have hC := lineage_suffix h hDC
  have hD := lineage_suffix h hCD
  have hlineage : F.lineage C = F.lineage D := hC.eq_of_length_le hD.length_le
  obtain ⟨c, L, hL⟩ := List.exists_cons_of_ne_nil (contains_iff.mp ((isSubclass_iff_reflTransGen h).mp hDC).1)
  rw [← name_of_lineage hL, name_of_lineage (hlineage.trans hL)]

theorem lineageIn_sublist (rev : List ClassDecl) : ∀ name : String, (lineageIn rev name).Sublist rev := by
  induction rev with
  | nil => exact fun _ => List.Sublist.refl _
  | cons d earlier ih =>
      intro name
      unfold lineageIn
      split_ifs with hname
      · cases d.superName with
        | none => exact List.Sublist.cons_cons d (List.nil_sublist _)
        | some s => exact List.Sublist.cons_cons d (ih s)
      · exact (ih name).cons d

/-- The depth of a class counts the steps of its way up. -/
theorem depth?_eq_some_iff (h : Ordered F.classes.reverse) {n : Nat} :
    F.depth? D = some n ↔ ∃ c L, F.Ascent c L ∧ c.name = D ∧ L.length = n + 1 := by
  have hlength : ∀ c ∈ F.classes, (F.lineage c.name).length = (F.ancestors c.name).length + 1 := by
    intro c hc
    rw [ancestors, lineage_of_mem h hc, List.tail_cons, List.length_cons]
  rw [depth?]
  constructor
  · intro hdepth
    split_ifs at hdepth with hD
    obtain ⟨c, hc, rfl⟩ := contains_iff_exists.mp hD
    obtain rfl := Option.some.inj hdepth
    exact ⟨c, F.lineage c.name, (ascent_iff h).mpr ⟨hc, rfl⟩, rfl, hlength c hc⟩
  · rintro ⟨c, L, hL, rfl, hn⟩
    obtain ⟨hc, rfl⟩ := (ascent_iff h).mp hL
    rw [if_pos (contains_iff_exists.mpr ⟨c, hc, rfl⟩), Option.some.injEq]
    exact Nat.succ.inj ((hlength c hc).symm.trans hn)

theorem exists_depth? (hD : F.contains D = true) : ∃ n, F.depth? D = some n :=
  ⟨_, if_pos hD⟩

theorem depth_lt_length (h : Ordered F.classes.reverse) {n : Nat} (hn : F.depth? D = some n) :
    n < F.classes.length := by
  obtain ⟨c, L, hL, _, hlength⟩ := (depth?_eq_some_iff h).mp hn
  obtain ⟨_, rfl⟩ := (ascent_iff h).mp hL
  have hle := (lineageIn_sublist F.classes.reverse c.name).length_le
  rw [← lineage, hlength, List.length_reverse] at hle
  exact Nat.lt_of_succ_le hle

end

/-- Declarations, earliest first, in which no class shares its name with one behind it, and none extends itself or
one behind it. -/
def Forward : List ClassDecl → Prop
  | [] => True
  | c :: later =>
    c.name ∉ later.map (·.name) ∧ (∀ s, c.superName = some s → s ∉ (c :: later).map (·.name)) ∧ Forward later

theorem forward_of_ordered (cs : List ClassDecl) :
    ∀ rev : List ClassDecl, Ordered (cs.reverse ++ rev) → Forward cs := by
  induction cs with
  | nil => exact fun _ _ => trivial
  | cons c cs ih =>
      intro rev h
      rw [List.reverse_cons, List.append_assoc, List.singleton_append] at h
      have hnodup := h.nodup
      rw [List.map_append, List.map_reverse, List.nodup_append, List.map_cons] at hnodup
      obtain ⟨_, _, hdisjoint⟩ := hnodup
      obtain ⟨hnew, hsuper, _⟩ := h.of_append
      refine ⟨fun hmem => ?_, fun s hs hmem => ?_, ih (c :: rev) h⟩
      · exact hdisjoint _ (List.mem_reverse.mpr hmem) _ List.mem_cons_self rfl
      · rcases List.mem_cons.mp hmem with rfl | hmem
        · exact hnew (hsuper _ hs)
        · exact hdisjoint _ (List.mem_reverse.mpr hmem) _ (List.mem_cons_of_mem _ (hsuper s hs)) rfl

section
variable {c : ClassDecl} {later : List ClassDecl} {C D S : String}

theorem Forward.nodup (h : Forward later) : (later.map (·.name)).Nodup := by
  induction later with
  | nil => exact List.nodup_nil
  | cons c later ih => exact List.nodup_cons.mpr ⟨h.1, ih h.2.2⟩

theorem extends_cons_iff :
    Extends ⟨c :: later⟩ D C ↔ (c.name = D ∧ c.superName = some C) ∨ Extends ⟨later⟩ D C := by
  simp [Extends]

theorem Extends.mem_names (hext : Extends ⟨later⟩ D C) : D ∈ later.map (·.name) := by
  obtain ⟨d, hd, rfl, _⟩ := hext
  exact List.mem_map_of_mem hd

theorem mem_names_of_transGen (hup : Relation.TransGen (Extends ⟨later⟩) D C) : D ∈ later.map (·.name) := by
  obtain ⟨_, hext, _⟩ := Relation.TransGen.head'_iff.mp hup
  exact hext.mem_names

/-- A way up through a class in front of all others ends with the step that this class makes. -/
theorem transGen_extends_cons (h : Forward (c :: later)) :
    Relation.TransGen (Extends ⟨c :: later⟩) D C ↔ Relation.TransGen (Extends ⟨later⟩) D C ∨
      c.superName = some C ∧ Relation.ReflTransGen (Extends ⟨later⟩) D c.name := by
  have hmono : ∀ A B, Extends ⟨later⟩ A B → Extends ⟨c :: later⟩ A B := fun A B hext =>
    extends_cons_iff.mpr (.inr hext)
  constructor
  · intro hup
    induction hup with
    | single hext =>
        rcases extends_cons_iff.mp hext with ⟨rfl, hs⟩ | hext
        · exact .inr ⟨hs, .refl⟩
        · exact .inl (.single hext)
    | tail _ hext ih =>
        rcases ih with hup | ⟨hs, _⟩
        · rcases extends_cons_iff.mp hext with ⟨rfl, hs⟩ | hext
          · exact .inr ⟨hs, hup.to_reflTransGen⟩
          · exact .inl (hup.tail hext)
        -- what the first class extends is not among these classes, so no step goes on from there
        · exact absurd hext.mem_names (h.2.1 _ hs)
  · rintro (hup | ⟨hs, hup⟩)
    · exact Relation.TransGen.mono hmono _ _ hup
    · exact Relation.TransGen.tail' (Relation.ReflTransGen.mono hmono _ _ hup) (extends_cons_iff.mpr (.inl ⟨rfl, hs⟩))

/-- The descendants of a name are what leads up to it through the classes behind. -/
theorem mem_descendantsIn (h : Forward later) :
    D ∈ descendantsIn later C ↔ Relation.TransGen (Extends ⟨later⟩) D C := by
  induction later generalizing C with
  | nil =>
      simp only [descendantsIn, List.not_mem_nil, false_iff]
      exact fun hup => absurd (mem_names_of_transGen hup) List.not_mem_nil
  | cons c later ih =>
      rw [descendantsIn, transGen_extends_cons h]
      split_ifs with hs
      · rw [List.mem_cons, List.mem_append, ih h.2.2, ih h.2.2, Relation.reflTransGen_iff_eq_or_transGen]
        simp only [hs, true_and]
        rw [eq_comm (a := c.name)]
        tauto
      · simp [ih h.2.2, hs]

theorem mem_names_of_mem_descendantsIn (h : Forward later) (hD : D ∈ descendantsIn later C) :
    D ∈ later.map (·.name) :=
  mem_names_of_transGen ((mem_descendantsIn h).mp hD)

/-- No class leads up to two names that no class behind has. -/
theorem eq_of_transGen (hnodup : (later.map (·.name)).Nodup) {A B : String}
    (hA : Relation.TransGen (Extends ⟨later⟩) D A) (hB : Relation.TransGen (Extends ⟨later⟩) D B)
    (hAnew : A ∉ later.map (·.name)) (hBnew : B ∉ later.map (·.name)) : A = B := by
  have hstop : ∀ {X Y : String}, X ∉ later.map (·.name) → Relation.ReflTransGen (Extends ⟨later⟩) X Y → X = Y := by
    intro X Y hX hup
    rcases Relation.reflTransGen_iff_eq_or_transGen.mp hup with heq | hup
    · exact heq.symm
    · exact absurd (mem_names_of_transGen hup) hX
  rcases Relation.ReflTransGen.total_of_right_unique (extends_rightUnique (F := ⟨later⟩) hnodup)
    hA.to_reflTransGen hB.to_reflTransGen with hup | hup
  · exact hstop hAnew hup
  · exact (hstop hBnew hup).symm

theorem nodup_descendantsIn (h : Forward later) (hC : C ∉ later.map (·.name)) :
    (descendantsIn later C).Nodup := by
  induction later generalizing C with
  | nil => exact List.nodup_nil
  | cons c later ih =>
      obtain ⟨hne, hC⟩ := not_or.mp (mt List.mem_cons.mpr hC)
      obtain ⟨hnew, _, hlater⟩ := h
      rw [descendantsIn]
      split_ifs
      · rw [List.nodup_cons, List.mem_append, List.nodup_append]
        refine ⟨?_, ih hlater hnew, ih hlater hC, ?_⟩
        · rintro (hmem | hmem) <;> exact hnew (mem_names_of_mem_descendantsIn hlater hmem)
        · rintro D hown _ hother rfl
          exact hne (eq_of_transGen hlater.nodup ((mem_descendantsIn hlater).mp hother)
            ((mem_descendantsIn hlater).mp hown) hC hnew)
      · exact ih hlater hC

/-- A descendant is listed behind what it extends. -/
theorem sublist_descendantsIn (h : Forward later) (hD : D ∈ descendantsIn later C)
    (hext : Extends ⟨later⟩ D S) : [S, D].Sublist (C :: descendantsIn later C) := by
  induction later generalizing C with
  | nil => exact absurd hD List.not_mem_nil
  | cons c later ih =>
      obtain ⟨hnew, _, hlater⟩ := h
      have hbehind : ∀ {A : String}, D ∈ descendantsIn later A → [S, D].Sublist (A :: descendantsIn later A) := by
        intro A hA
        refine ih hlater hA ?_
        rcases extends_cons_iff.mp hext with ⟨rfl, _⟩ | hext
        · exact absurd (mem_names_of_mem_descendantsIn hlater hA) hnew
        · exact hext
      rw [descendantsIn] at hD ⊢
      split_ifs at hD ⊢ with hs
      · rcases List.mem_cons.mp hD with rfl | hD
        · obtain rfl : S = C := by
            rcases extends_cons_iff.mp hext with ⟨_, hS⟩ | hext
            · exact Option.some.inj (hS.symm.trans hs)
            · exact absurd hext.mem_names hnew
          exact List.sublist_append_left [S, c.name] _
        · rcases List.mem_append.mp hD with hD | hD
          · exact ((hbehind hD).trans ((List.sublist_append_left _ _).cons_cons _)).cons C
          · exact (hbehind hD).trans (((List.sublist_append_right _ _).cons _).cons_cons C)
      · exact hbehind hD

/-- Classes in front that do not extend a name are on no way up to it. -/
theorem transGen_extends_append {front : List ClassDecl} (h : Forward (front ++ later))
    (hfront : ∀ b ∈ front, b.superName ≠ some C) :
    Relation.TransGen (Extends ⟨front ++ later⟩) D C ↔ Relation.TransGen (Extends ⟨later⟩) D C := by
  induction front with
  | nil => rfl
  | cons b front ih =>
      obtain ⟨hb, hfront⟩ := List.forall_mem_cons.mp hfront
      rw [List.cons_append] at h ⊢
      rw [transGen_extends_cons h, ih h.2.2 hfront]
      exact or_iff_left fun hlast => hb hlast.1

theorem Forward.of_append {front : List ClassDecl} (h : Forward (front ++ later)) : Forward later := by
  induction front with
  | nil => exact h
  | cons b front ih => exact ih h.2.2

/-- Nothing in front of a class extends it, and it does not extend itself. -/
theorem Forward.super_ne {front : List ClassDecl} (h : Forward (front ++ c :: later)) :
    ∀ b ∈ front ++ [c], b.superName ≠ some c.name := by
  induction front with
  | nil =>
      intro b hb hs
      obtain rfl := List.mem_singleton.mp hb
      exact h.2.1 _ hs List.mem_cons_self
  | cons d front ih =>
      rw [List.cons_append, List.forall_mem_cons]
      refine ⟨fun hs => h.2.1 _ hs ?_, ih h.2.2⟩
      exact List.mem_cons_of_mem _ (List.mem_map_of_mem (List.mem_append_right _ List.mem_cons_self))

end

section
variable {F : Forest} {C D S : String} {c : ClassDecl}

theorem forward_classes (h : Ordered F.classes.reverse) : Forward F.classes :=
  forward_of_ordered F.classes [] (by rwa [List.append_nil])

/-- The family of a class is the class and its descendants among the classes behind it. -/
theorem exists_family (h : Ordered F.classes.reverse) (hc : c ∈ F.classes) :
    ∃ front later, F.classes = front ++ c :: later ∧ Forward (front ++ c :: later) ∧
      F.family c.name = c.name :: descendantsIn later c.name := by
  obtain ⟨front, later, hsplit⟩ := List.append_of_mem hc
  refine ⟨front, later, hsplit, hsplit ▸ forward_classes h, ?_⟩
  have hnodup := nodup_classNames h
  rw [hsplit, List.map_append, List.nodup_append] at hnodup
  have hfront : ∀ d ∈ front, decide (d.name ≠ c.name) = true := by
    intro d hd
    rw [decide_eq_true_eq]
    exact hnodup.2.2 d.name (List.mem_map_of_mem hd) c.name (List.mem_map_of_mem List.mem_cons_self)
  rw [family, hsplit, List.dropWhile_append_of_pos hfront]
  simp

theorem family_eq_nil (hC : F.contains C = false) : F.family C = [] := by
  have hall : ∀ c ∈ F.classes, decide (c.name ≠ C) = true := by
    intro c hc
    rw [decide_eq_true_eq]
    rintro rfl
    rw [contains_iff_exists.mpr ⟨c, hc, rfl⟩] at hC
    cases hC
  rw [family, List.dropWhile_eq_nil_iff.mpr hall]

/-- The family of a class are its subclasses. -/
theorem mem_family_iff (h : Ordered F.classes.reverse) : D ∈ F.family C ↔ F.isSubclass D C = true := by
  by_cases hC : F.contains C = true
  · obtain ⟨c, hc, rfl⟩ := contains_iff_exists.mp hC
    obtain ⟨front, later, hsplit, hforward, hfamily⟩ := exists_family h hc
    have happend : front ++ c :: later = front ++ [c] ++ later := by simp
    have hup : Relation.TransGen F.Extends D c.name ↔ Relation.TransGen (Extends ⟨later⟩) D c.name := by
      have hF : F = ⟨front ++ [c] ++ later⟩ := by rw [← happend, ← hsplit]
      rw [hF]
      exact transGen_extends_append (happend ▸ hforward) hforward.super_ne
    rw [hfamily, List.mem_cons, mem_descendantsIn hforward.of_append.2.2, ← hup, isSubclass_iff_reflTransGen h,
      Relation.reflTransGen_iff_eq_or_transGen, eq_comm (a := c.name)]
    refine ⟨?_, fun hsub => hsub.2⟩
    rintro (rfl | hup)
    · exact ⟨hC, .inl rfl⟩
    · obtain ⟨_, hext, _⟩ := Relation.TransGen.head'_iff.mp hup
      exact ⟨hext.contains, .inr hup⟩
  · rw [family_eq_nil (Bool.not_eq_true _ ▸ hC)]
    refine iff_of_false List.not_mem_nil fun hsub => hC ?_
    obtain ⟨c, hc, rfl⟩ := isSubclass_iff.mp hsub
    exact contains_iff_exists.mpr ⟨c, List.mem_reverse.mp (mem_of_mem_lineageIn _ hc), rfl⟩

theorem nodup_family (h : Ordered F.classes.reverse) (C : String) : (F.family C).Nodup := by
  by_cases hC : F.contains C = true
  · obtain ⟨c, hc, rfl⟩ := contains_iff_exists.mp hC
    obtain ⟨front, later, _, hforward, hfamily⟩ := exists_family h hc
    obtain ⟨hnew, _, hlater⟩ := hforward.of_append
    rw [hfamily, List.nodup_cons]
    exact ⟨fun hmem => hnew (mem_names_of_mem_descendantsIn hlater hmem), nodup_descendantsIn hlater hnew⟩
  · rw [family_eq_nil (Bool.not_eq_true _ ▸ hC)]
    exact List.nodup_nil

theorem head?_family (h : Ordered F.classes.reverse) (hC : F.contains C = true) : (F.family C).head? = some C := by
  obtain ⟨c, hc, rfl⟩ := contains_iff_exists.mp hC
  obtain ⟨_, _, _, _, hfamily⟩ := exists_family h hc
  rw [hfamily, List.head?_cons]

/-- In a family, a class stands behind the one that it extends. -/
theorem sublist_family (h : Ordered F.classes.reverse) (hD : D ∈ F.family C) (hne : D ≠ C) (hext : F.Extends D S) :
    [S, D].Sublist (F.family C) := by
  obtain ⟨c, hc, rfl⟩ : ∃ c ∈ F.classes, c.name = C := by
    rw [← contains_iff_exists]
    by_contra hC
    rw [family_eq_nil (Bool.not_eq_true _ ▸ hC)] at hD
    exact absurd hD List.not_mem_nil
  obtain ⟨front, later, hsplit, hforward, hfamily⟩ := exists_family h hc
  obtain ⟨_, _, hlater⟩ := hforward.of_append
  rw [hfamily] at hD ⊢
  have hdescends := (List.mem_cons.mp hD).resolve_left hne
  apply sublist_descendantsIn hlater hdescends
  -- the declaration of `D` is the one behind `c`, since no other has its name
  obtain ⟨d, hd, rfl, hs⟩ := hext
  obtain ⟨e, he, hname⟩ := List.mem_map.mp (mem_names_of_mem_descendantsIn hlater hdescends)
  have he' : e ∈ F.classes := by
    rw [hsplit]
    exact List.mem_append_right _ (List.mem_cons_of_mem _ he)
  obtain rfl := List.inj_on_of_nodup_map (nodup_classNames h) he' hd hname
  exact ⟨e, he, rfl, hs⟩

theorem mem_roots_iff : c ∈ F.roots ↔ c ∈ F.classes ∧ c.superName = none := by
  simp [roots]

/-- Every class is in the family of a root. -/
theorem exists_root_of_mem (h : Ordered F.classes.reverse) (hc : c ∈ F.classes) :
    ∃ r ∈ F.roots, c.name ∈ F.family r.name := by
  have hL : F.Ascent c (F.lineage c.name) := (ascent_iff h).mpr ⟨hc, rfl⟩
  obtain ⟨r, hr, hlast⟩ := hL.exists_root
  exact ⟨r, hr, (mem_family_iff h).mpr (isSubclass_iff.mpr ⟨r, List.mem_of_getLast? hlast, rfl⟩)⟩

/-- From a root there is no way up. -/
theorem eq_of_reflTransGen_root (h : Ordered F.classes.reverse) {r : ClassDecl} (hr : r ∈ F.roots)
    (hup : Relation.ReflTransGen F.Extends r.name C) : C = r.name := by
  rcases Relation.ReflTransGen.cases_head hup with rfl | ⟨_, ⟨d, hd, hname, hs⟩, _⟩
  · rfl
  · obtain ⟨hmem, hnone⟩ := mem_roots_iff.mp hr
    obtain rfl := List.inj_on_of_nodup_map (nodup_classNames h) hd hmem hname
    rw [hnone] at hs
    cases hs

/-- The families of two roots share no class. -/
theorem root_unique (h : Ordered F.classes.reverse) {r s : ClassDecl} (hr : r ∈ F.roots) (hs : s ∈ F.roots)
    (hrD : D ∈ F.family r.name) (hsD : D ∈ F.family s.name) : r.name = s.name := by
  have hr' := ((isSubclass_iff_reflTransGen h).mp ((mem_family_iff h).mp hrD)).2
  have hs' := ((isSubclass_iff_reflTransGen h).mp ((mem_family_iff h).mp hsD)).2
  rcases Relation.ReflTransGen.total_of_right_unique (extends_rightUnique (nodup_classNames h)) hr' hs' with hup | hup
  · exact (eq_of_reflTransGen_root h hr hup).symm
  · exact eq_of_reflTransGen_root h hs hup

theorem nodup_rootNames (h : Ordered F.classes.reverse) : (F.roots.map (·.name)).Nodup :=
  ((List.filter_sublist).map _).nodup (nodup_classNames h)

/-- The families of the roots list every class once. -/
theorem families_perm (h : Ordered F.classes.reverse) :
    (F.roots.flatMap fun r => F.family r.name).Perm (F.classes.map (·.name)) := by
  have hdisjoint : F.roots.Pairwise fun r s => (F.family r.name).Disjoint (F.family s.name) := by
    have hnames := List.pairwise_map.mp (nodup_rootNames h)
    refine hnames.imp_of_mem fun {r s} hr hs hne D hrD hsD => hne (root_unique h hr hs hrD hsD)
  have hnodup : (F.roots.flatMap fun r => F.family r.name).Nodup :=
    List.nodup_flatMap.mpr ⟨fun r _ => nodup_family h r.name, hdisjoint⟩
  rw [List.perm_ext_iff_of_nodup hnodup (nodup_classNames h)]
  intro C
  rw [List.mem_flatMap, List.mem_map]
  constructor
  · rintro ⟨r, _, hC⟩
    have hC' := ((isSubclass_iff_reflTransGen h).mp ((mem_family_iff h).mp hC)).1
    exact contains_iff_exists.mp hC'
  · rintro ⟨c, hc, rfl⟩
    exact exists_root_of_mem h hc

end

end Demitasse.Forest
