import Demitasse.Proofs.Dispatch

/-!
Where slots come from. A method has a slot in the table of a class exactly if some class of its lineage declares
it. The uppermost class that does introduces the slot, behind all slots of its superclass, and every class from there
down to the first one has the method in that slot, whether it overrides the method or not.
-/

namespace Demitasse

open Forest

namespace Table

variable {α β : Type}

theorem index?_eq_none {t : Table α} {k : String} (h : k ∉ t.keys) : t.index? k = none := by
  rw [← Option.not_isSome_iff_eq_none, index?_isSome]
  exact h

/-- A name that is new to a table comes behind all names that were there. -/
theorem size_le_index?_of_prefix {t : Table α} {u : Table β} (h : t.keys <+: u.keys) {k : String} (hk : k ∉ t.keys)
    {i : Nat} (hi : u.index? k = some i) : t.size ≤ i := by
  obtain ⟨added, hadded⟩ := h
  have hnone := index?_eq_none hk
  rw [index?_eq] at hnone
  rw [index?_eq, ← hadded, List.findIdx?_append, hnone, Option.none_or] at hi
  obtain ⟨j, _, rfl⟩ := Option.map_eq_some_iff.mp hi
  rw [size, keys, List.length_map]
  exact Nat.le_add_left _ _

end Table

/-- The table of a lineage names the methods that its classes declare. -/
theorem mem_keys_methodsAlong {L : List ClassDecl} {m : String} :
    m ∈ (Table.along ClassDecl.methodEntries L).keys ↔ ∃ c ∈ L, (c.method? m).isSome := by
  rw [← Table.find?_isSome, Table.find?_along, List.findSome?_isSome_iff]
  simp only [ClassDecl.lookup_methodEntries, Option.isSome_map, ClassDecl.lastMethod?_isSome]

section
variable {F : Forest} {C m : String} {K : ClassDecl}

/-- The introducer of a method declares it, and no class above does. -/
theorem Forest.introducer?_eq_some_iff :
    F.introducer? C m = some K ↔ ∃ nearer further, F.lineage C = nearer ++ K :: further ∧
      (K.method? m).isSome ∧ ∀ d ∈ further, ¬ (d.method? m).isSome := by
  rw [introducer?, List.find?_eq_some_iff_append]
  constructor
  · rintro ⟨hK, above, below, hsplit, habove⟩
    refine ⟨below.reverse, above.reverse, ?_, hK, fun d hd => ?_⟩
    · rw [← List.reverse_reverse (F.lineage C), hsplit, List.reverse_append, List.reverse_cons, List.append_assoc,
        List.singleton_append]
    · simpa using habove d (List.mem_reverse.mp hd)
  · rintro ⟨nearer, further, hsplit, hK, hfurther⟩
    refine ⟨hK, further.reverse, nearer.reverse, ?_, fun d hd => ?_⟩
    · rw [hsplit, List.reverse_append, List.reverse_cons, List.append_assoc, List.singleton_append]
    · simpa using hfurther d (List.mem_reverse.mp hd)

theorem Forest.introducer?_isSome_iff :
    (F.introducer? C m).isSome ↔ ∃ c ∈ F.lineage C, (c.method? m).isSome := by
  rw [introducer?, List.find?_isSome]
  simp only [List.mem_reverse]

end

namespace Analysis

/-- The slot of a method in the table of a class. -/
def slot? (a : Analysis) (className method : String) : Option Nat :=
  (a.catalog.layout? className).bind (·.slot? method)

variable {a : Analysis} {p : Program} {C D m : String} {K : ClassDecl} {k : Nat}
  {nearer further : List ClassDecl}

theorem Describes.slot?_eq (h : a.Describes p) (C m : String) :
    a.slot? C m = (Table.along ClassDecl.methodEntries (a.forest.lineage C)).index? m := by
  rw [slot?, h.layout?]
  cases hl : Layout.ofLineage (a.forest.lineage C) with
  | none =>
      have hnil : a.forest.lineage C = [] := by
        by_contra hne
        rw [← ne_eq, ← Layout.ofLineage_isSome, hl] at hne
        cases hne
      rw [hnil]
      rfl
  | some l => rw [Option.bind_some, Layout.slot?, Layout.methods_of_ofLineage hl]

theorem Describes.slot?_isSome_iff (h : a.Describes p) :
    (a.slot? C m).isSome ↔ ∃ c ∈ a.forest.lineage C, (c.method? m).isSome := by
  rw [h.slot?_eq, Table.index?_isSome, mem_keys_methodsAlong]

/-- The lineage of a member of a lineage is what stands from there on. -/
theorem Describes.lineage_of_split (h : a.Describes p) (hL : a.forest.lineage C = nearer ++ K :: further) :
    a.forest.lineage K.name = K :: further := by
  induction nearer generalizing C with
  | nil =>
      have hname : K.name = C := name_of_lineage hL
      rw [hname]
      exact hL
  | cons d nearer ih =>
      have habove := (h.lineage_eq_cons hL).2
      cases hsuper : d.superName with
      | none =>
          rw [hsuper] at habove
          exact absurd habove (by simp)
      | some S =>
          rw [hsuper] at habove
          exact ih habove.symm

/-- Of the classes above `C`, those that inherit from the introducer of a method have it in the slot that `C` has for
it, and the others do not have it. -/
theorem Describes.slot?_above (h : a.Describes p) (hL : a.forest.lineage C = nearer ++ K :: further)
    (hK : (K.method? m).isSome) (hfurther : ∀ d ∈ further, ¬ (d.method? m).isSome) (hk : a.slot? C m = some k)
    (hsub : a.forest.isSubclass C D = true) :
    a.slot? D m = if a.forest.isSubclass D K.name then some k else none := by
  have hD : a.forest.lineage D <:+ a.forest.lineage C := h.lineage_suffix hsub
  have hintroducer : K :: further <:+ a.forest.lineage C := ⟨nearer, hL.symm⟩
  rw [h.slot?_eq] at hk ⊢
  split_ifs with hbelow
  · have hlineage := h.lineage_suffix hbelow
    rw [h.lineage_of_split hL] at hlineage
    have hmem : m ∈ (Table.along ClassDecl.methodEntries (a.forest.lineage D)).keys :=
      mem_keys_methodsAlong.mpr ⟨K, hlineage.subset List.mem_cons_self, hK⟩
    obtain ⟨j, hj⟩ := Option.isSome_iff_exists.mp ((Table.index?_isSome _ _).mpr hmem)
    have hjC := Table.index?_of_prefix (Table.keys_along_prefix ClassDecl.methodEntries hD) hj
    rw [hj, ← hk, hjC]
  · have habove : a.forest.lineage D <:+ further := by
      have hnot : ¬ K :: further <:+ a.forest.lineage D := fun hmem =>
        hbelow (isSubclass_iff.mpr ⟨K, hmem.subset List.mem_cons_self, rfl⟩)
      rcases List.suffix_cons_iff.mp ((List.suffix_or_suffix_of_suffix hD hintroducer).resolve_right hnot) with
        heq | habove
      · exact absurd (heq ▸ List.suffix_refl _) hnot
      · exact habove
    apply Table.index?_eq_none
    rw [mem_keys_methodsAlong]
    rintro ⟨c, hc, hdeclares⟩
    exact hfurther c (habove.subset hc) hdeclares

/-- The superclass of the introducer has no slot for the method, and all its slots come before that of the method. -/
theorem Describes.slot?_super (h : a.Describes p) (hL : a.forest.lineage C = nearer ++ K :: further)
    (hfurther : ∀ d ∈ further, ¬ (d.method? m).isSome) (hk : a.slot? C m = some k) {S : String}
    (hS : K.superName = some S) :
    ∃ l, a.catalog.layout? S = some l ∧ l.slot? m = none ∧ l.slotCount ≤ k := by
  have hlineage : a.forest.lineage S = further := by
    have habove := (h.lineage_eq_cons (h.lineage_of_split hL)).2
    rw [hS] at habove
    exact habove.symm
  have hdeclared := (h.lineage_eq_cons (h.lineage_of_split hL)).1
  obtain ⟨s, hs, rfl⟩ := List.mem_map.mp (h.ordered.super_mem (List.mem_reverse.mpr hdeclared) hS)
  have hl := h.layout?_of_mem (List.mem_reverse.mp hs)
  have hmethods : (p.layoutOf s).methods = Table.along ClassDecl.methodEntries further := by
    rw [← hlineage]
    exact Layout.methods_of_ofLineage (by rw [← h.layout?, hl])
  have hnew : m ∉ (Table.along ClassDecl.methodEntries further).keys := by
    rw [mem_keys_methodsAlong]
    rintro ⟨c, hc, hdeclares⟩
    exact hfurther c hc hdeclares
  refine ⟨p.layoutOf s, hl, ?_, ?_⟩
  · rw [Layout.slot?, hmethods]
    exact Table.index?_eq_none hnew
  · rw [Layout.slotCount, hmethods]
    rw [h.slot?_eq, hL] at hk
    refine Table.size_le_index?_of_prefix (Table.keys_along_prefix _ ?_) hnew hk
    exact (List.suffix_cons K further).trans (List.suffix_append nearer _)

end Analysis

/-- A class has a slot for a method exactly if the method has an introducer among the class and its ancestors. The
introducer declares the method and has it in the same slot; its superclass has no slot for it, and all slots of the
superclass come before. Of the class and its ancestors, those from the introducer down have the method in that slot,
and those above do not have it. -/
theorem introducer_gives_slot {p : Program} {a : Analysis} (ha : Analysis.ofProgram p = .ok a) (C m : String) :
    ((∃ K, a.forest.introducer? C m = some K) ↔ ∃ k, a.slot? C m = some k) ∧
    ∀ K k, a.forest.introducer? C m = some K → a.slot? C m = some k →
      a.slot? K.name m = some k ∧
      (∀ S, K.superName = some S → ∃ l, a.catalog.layout? S = some l ∧ l.slot? m = none ∧ l.slotCount ≤ k) ∧
      (K ∈ p.classes ∧ (K.method? m).isSome ∧ a.forest.isSubclass C K.name = true) ∧
      ∀ D, a.forest.isSubclass C D = true →
        a.slot? D m = if a.forest.isSubclass D K.name then some k else none := by
  have h := Analysis.describes ha
  refine ⟨?_, fun K k hK hk => ?_⟩
  · rw [← Option.isSome_iff_exists, ← Option.isSome_iff_exists, h.slot?_isSome_iff, Forest.introducer?_isSome_iff]
  · obtain ⟨nearer, further, hL, hmethod, hfurther⟩ := Forest.introducer?_eq_some_iff.mp hK
    have hmem : K ∈ a.forest.lineage C := hL ▸ List.mem_append_right _ List.mem_cons_self
    have hsub : a.forest.isSubclass C K.name = true := isSubclass_iff.mpr ⟨K, hmem, rfl⟩
    have hself : a.forest.isSubclass K.name K.name = true :=
      isSubclass_iff.mpr ⟨K, by rw [h.lineage_of_split hL]; exact List.mem_cons_self, rfl⟩
    refine ⟨?_, fun S => h.slot?_super hL hfurther hk, ⟨h.mem_classes hmem, hmethod, hsub⟩,
      fun D => h.slot?_above hL hmethod hfurther hk⟩
    rw [h.slot?_above hL hmethod hfurther hk hsub, if_pos hself]

/-- Four generations: `Cart` adds the method `brake` to what `Wheel` has, `Trailer` adds `couple`, and `Wagon`
declares `brake` once more. -/
def convoy : Program where
  main := ⟨⟨1, .origin⟩, "Main", "args", .block ⟨0, .origin⟩ []⟩
  classes :=
    [⟨⟨4, .origin⟩, "Wheel", none, [], [answer 2 "turn"]⟩,
      ⟨⟨7, .origin⟩, "Cart", some "Wheel", [], [answer 5 "brake"]⟩,
      ⟨⟨10, .origin⟩, "Trailer", some "Cart", [], [answer 8 "couple"]⟩,
      ⟨⟨13, .origin⟩, "Wagon", some "Trailer", [], [answer 11 "brake"]⟩]
  span := .origin
where
  /-- a method that returns zero -/
  answer (id : NodeId) (name : String) : MethodDecl :=
    ⟨⟨id + 1, .origin⟩, .int, name, [], [], [], .int ⟨id, .origin⟩ 0⟩

theorem introducer_gives_slot_convoy : ∃ a, Analysis.ofProgram convoy = .ok a ∧
    a.forest.introducer? "Wagon" "brake" = some convoy.classes[1] ∧ a.slot? "Wagon" "brake" = some 1 ∧
    a.slot? "Cart" "brake" = some 1 ∧
    (∃ l, a.catalog.layout? "Wheel" = some l ∧ l.slot? "brake" = none ∧ l.slotCount ≤ 1) ∧
    a.slot? "Trailer" "brake" = some 1 ∧ a.slot? "Wheel" "brake" = none := by
  obtain ⟨a, ha, h⟩ := Analysis.ofProgram_of_forest (p := convoy) (F := ⟨convoy.classes⟩) rfl
  have hK : a.forest.introducer? "Wagon" "brake" = some convoy.classes[1] := by rw [h.forest]; rfl
  have hk : a.slot? "Wagon" "brake" = some 1 := by rw [h.slot?_eq, h.forest]; rfl
  obtain ⟨hslot, hsuper, _, habove⟩ := (introducer_gives_slot ha "Wagon" "brake").2 _ _ hK hk
  have hTrailer : a.forest.isSubclass "Wagon" "Trailer" = true := by rw [h.forest]; decide
  have hWheel : a.forest.isSubclass "Wagon" "Wheel" = true := by rw [h.forest]; decide
  refine ⟨a, ha, hK, hk, hslot, hsuper "Wheel" rfl, (habove _ hTrailer).trans (if_pos ?_),
    (habove _ hWheel).trans (if_neg ?_)⟩
  · rw [h.forest]; decide
  · rw [h.forest]; decide

end Demitasse
