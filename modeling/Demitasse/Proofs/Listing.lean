import Demitasse.Class.Describe
import Demitasse.Proofs.Families
import Demitasse.Proofs.Legibility

/-!
The listing of a class forest. It goes through the families of the roots, and for each class it has one line
that heads the class, set in by two blanks for every step up to the root, and lines for fields and slots that are set
in further. Where names are words, the lines that head classes are those with a parenthesis.
-/

namespace Demitasse

/-- The lines of a text that have a parenthesis. -/
def headLines (text : List Char) : List (List Char) :=
  (text.splitOn '\n').filter fun line => ')' ∈ line

namespace Analysis

/-- The blanks in front of a class, two for every step up to its root. -/
def margin (a : Analysis) (C : String) : String :=
  String.ofList (List.replicate (2 * (a.forest.depth? C).getD 0) ' ')

/-- The line that heads a class. -/
def headLine (a : Analysis) (C : String) : String :=
  a.margin C ++ C ++ ((a.forest.parent? C).elim "" fun d => " extends " ++ d.name) ++ " (size "
    ++ toString ((a.catalog.size? C).getD 0) ++ ")"

/-- The lines of the fields and of the slots of a class. -/
def memberLines (a : Analysis) (C : String) : List String :=
  (a.catalog.layout? C).elim [] fun l =>
    (l.fields.entries.map fun (field, ty) =>
      a.margin C ++ "  field " ++ threeColumns ((l.fieldOffset? field).getD 0) ++ "  " ++ ty.spelling ++ " " ++ field)
    ++ l.methods.entries.zipIdx.map fun ((method, signature), slot) =>
      a.margin C ++ "  slot  " ++ threeColumns slot ++ "  " ++ method ++ " -> " ++ signature.qualifiedName

/-- The lines of a class. -/
def classLines (a : Analysis) (C : String) : List String :=
  a.headLine C :: a.memberLines C

/-- The classes in the order of the listing: the families of the roots. -/
def listed (a : Analysis) : List String :=
  a.forest.roots.flatMap fun r => a.forest.family r.name

end Analysis

theorem splitOn_lines {lines : List (List Char)} (h : ∀ line ∈ lines, '\n' ∉ line) :
    (lines.flatMap (· ++ ['\n'])).splitOn '\n' = lines ++ [[]] := by
  induction lines with
  | nil => rfl
  | cons line lines ih =>
      obtain ⟨hline, hlines⟩ := List.forall_mem_cons.mp h
      rw [List.flatMap_cons, List.append_assoc, List.singleton_append, List.splitOn_append_cons_self,
        List.splitOn_eq_singleton hline, ih hlines, List.singleton_append, List.cons_append]

theorem headLines_join {lines : List String} (h : ∀ line ∈ lines, '\n' ∉ line.toList) :
    headLines (String.join (lines.map (· ++ "\n"))).toList =
      (lines.map String.toList).filter fun line => ')' ∈ line := by
  have htext : (String.join (lines.map (· ++ "\n"))).toList = (lines.map String.toList).flatMap (· ++ ['\n']) := by
    rw [String.toList_join, List.flatMap_map, List.flatMap_map]
    apply List.flatMap_congr
    intro line _
    rw [String.toList_append]
    rfl
  rw [headLines, htext, splitOn_lines (List.forall_mem_map.mpr h), List.filter_append]
  simp

section
variable {a : Analysis} {p : Program} {C : String} {c : ClassDecl}

open Forest

/-- The layout of a class names the parent of the class. -/
theorem Analysis.Describes.superName_layoutOf (h : a.Describes p) (hc : c ∈ p.classes) :
    (p.layoutOf c).superName = (a.forest.parent? c.name).map (·.name) := by
  have hmem : ∀ {d : ClassDecl}, d ∈ p.classes ↔ d ∈ a.forest.classes := by
    intro d
    rw [h.forest]
  rw [parent?_of_mem h.ordered_forest (hmem.mp hc), Program.layoutOf, (Layout.ofClass_names _ _).2]
  cases hs : c.superName with
  | none => rfl
  | some s =>
      obtain ⟨d, hd, rfl⟩ := exists_super h.ordered_forest (hmem.mp hc) hs
      rw [Option.elim_some, Program.ofLineage_eq h.ordered (hmem.mpr hd), Option.bind_some,
        (find?_eq_some_iff h.ordered_forest).mpr ⟨hd, rfl⟩, Option.map_some, Option.map_some, Program.layoutOf,
        (Layout.ofClass_names _ _).1]

/-- The text of a class consists of its lines. -/
theorem Analysis.Describes.describe_layoutOf (h : a.Describes p) (hc : c ∈ p.classes) :
    (p.layoutOf c).describe c.name ((a.forest.depth? c.name).getD 0) =
      String.join ((a.classLines c.name).map (· ++ "\n")) := by
  have hlayout := h.layout?_of_mem hc
  have hsuper := h.superName_layoutOf hc
  rw [classLines, headLine, memberLines, Catalog.size?, hlayout, Option.map_some, Option.getD_some,
    Option.elim_some, List.map_cons, List.map_append, String.join_cons, String.join_append, List.map_map,
    List.map_map, Layout.describe, hsuper]
  have hclose : ")\n" = ")" ++ "\n" := rfl
  cases a.forest.parent? c.name with
  | none =>
      simp only [Option.map_none, Option.elim_none, hclose, margin, Function.comp_def, String.append_assoc]
  | some d =>
      simp only [Option.map_some, Option.elim_some, hclose, margin, Function.comp_def, String.append_assoc]

theorem join_flatMap {α : Type} (lines : α → List String) (l : List α) :
    String.join (l.map fun x => String.join (lines x)) = String.join (l.flatMap lines) := by
  induction l with
  | nil => rfl
  | cons x l ih => rw [List.map_cons, String.join_cons, List.flatMap_cons, String.join_append, ih]

theorem Analysis.Describes.mem_listed_iff (h : a.Describes p) : C ∈ a.listed ↔ ∃ c ∈ p.classes, c.name = C := by
  rw [listed, (families_perm h.ordered_forest).mem_iff, List.mem_map, h.forest]

/-- A listing has the lines of all classes, and no others. -/
theorem Analysis.Describes.describe_eq (h : a.Describes p) :
    a.describe = String.join ((a.listed.flatMap a.classLines).map (· ++ "\n")) := by
  rw [List.map_flatMap, ← join_flatMap]
  unfold describe
  apply congrArg String.join
  apply List.map_congr_left
  intro C hC
  obtain ⟨c, hc, rfl⟩ := h.mem_listed_iff.mp hC
  rw [h.layout?_of_mem hc]
  exact h.describe_layoutOf hc

end

/-- Texts inside a line and without a parenthesis. -/
def Unbracketed (text : List Char) : Prop :=
  '\n' ∉ text ∧ ')' ∉ text

instance {text : List Char} : Decidable (Unbracketed text) :=
  inferInstanceAs (Decidable (_ ∧ _))

section
variable {text rest : List Char}

@[simp] theorem unbracketed_append : Unbracketed (text ++ rest) ↔ Unbracketed text ∧ Unbracketed rest := by
  rw [Unbracketed, List.mem_append, List.mem_append, not_or, not_or]
  exact and_and_and_comm

theorem unbracketed_of_forall {p : Char → Bool} (hline : p '\n' = false) (hclose : p ')' = false)
    (h : ∀ c ∈ text, p c = true) : Unbracketed text := by
  constructor
  · intro hmem
    exact absurd (h _ hmem) (by rw [hline]; exact Bool.false_ne_true)
  · intro hmem
    exact absurd (h _ hmem) (by rw [hclose]; exact Bool.false_ne_true)

theorem IsWord.unbracketed (h : IsWord text) : Unbracketed text :=
  unbracketed_of_forall (by decide) (by decide) h.isWordChar

end

theorem unbracketed_toString (n : Nat) : Unbracketed (toString n).toList :=
  unbracketed_of_forall (p := Char.isDigit) (by decide) (by decide) fun _ hc => isDigit_of_mem_toString hc

theorem unbracketed_blanks (n : Nat) : Unbracketed (String.ofList (List.replicate n ' ')).toList := by
  rw [String.toList_ofList]
  refine unbracketed_of_forall (p := (· = ' ')) (by decide) (by decide) fun c hc => ?_
  exact decide_eq_true (List.eq_of_mem_replicate hc)

theorem unbracketed_threeColumns (n : Nat) : Unbracketed (threeColumns n).toList := by
  rw [threeColumns, String.toList_append, unbracketed_append]
  exact ⟨unbracketed_blanks _, unbracketed_toString n⟩

/-- The class of a type is named by an identifier. -/
def Ty.Identified (ty : Ty) : Prop :=
  ∀ C, ty = .object C → IsIdentifier C

theorem Ty.Identified.unbracketed {ty : Ty} (h : ty.Identified) : Unbracketed ty.spelling.toList := by
  cases ty with
  | object C => exact (h C rfl).1.unbracketed
  | _ => decide

theorem IsVarDecl.identified {ts : List Token} {v : VarDecl} (h : IsVarDecl ts v) (hts : ∀ t ∈ ts, t.Spelled) :
    v.ty.Identified := by
  obtain ⟨hty, _⟩ := h
  rintro C hC
  rw [hC] at hty
  cases hty with
  | object hname => exact ⟨hts (.word C) (by simp), hname⟩

/-- The fields of a program that was read have identifiers for names and for the names of their classes. -/
theorem field_identified_of_parse {source : String} {p : Program} (h : parse source = .ok p) {c : ClassDecl}
    (hc : c ∈ p.classes) {f : VarDecl} (hf : f ∈ c.fields) : IsIdentifier f.name ∧ f.ty.Identified := by
  obtain ⟨ts, ⟨_, hclasses⟩, hts⟩ := spelled_of_parse h
  obtain ⟨us, hclass, hus⟩ := hclasses.exists_of_mem hc
  obtain ⟨_, _, hfields, _⟩ := hclass
  obtain ⟨vs, hfield, hvs⟩ := hfields.exists_of_mem hf
  have hspelled : ∀ t ∈ vs, t.Spelled := fun t ht => hts t (List.mem_append_right _ (hus (by simp [hvs ht])))
  exact ⟨hfield.isIdentifier hspelled, hfield.identified hspelled⟩

section
variable {a : Analysis} {p : Program} {C : String} {c : ClassDecl} {source : String}

open Forest

/-- The lines of fields and slots have no parenthesis. -/
theorem Analysis.Describes.unbracketed_memberLines (h : a.Describes p) (hparse : parse source = .ok p)
    (hc : c ∈ p.classes) : ∀ line ∈ a.memberLines c.name, Unbracketed line.toList := by
  have hp := identified_of_parse hparse
  have hlayout := h.layout?_of_mem hc
  have hlineage := hlayout
  rw [h.layout?] at hlineage
  rw [memberLines, hlayout, Option.elim_some, List.forall_mem_append, List.forall_mem_map, List.forall_mem_map]
  refine ⟨?_, ?_⟩
  · rintro ⟨field, ty⟩ he
    rw [Layout.fields_of_ofLineage hlineage] at he
    obtain ⟨K, hK, he⟩ := Table.mem_entries_along he
    obtain ⟨f, hf, heq⟩ := List.mem_map.mp he
    cases heq
    obtain ⟨hname, hty⟩ := field_identified_of_parse hparse (h.mem_classes hK) hf
    simp only [String.toList_append, unbracketed_append, hname.1.unbracketed, hty.unbracketed, margin,
      unbracketed_blanks, unbracketed_threeColumns, and_true, true_and]
    decide
  · rintro ⟨⟨method, signature⟩, slot⟩ he
    replace he := List.fst_mem_of_mem_zipIdx he
    rw [Layout.methods_of_ofLineage hlineage] at he
    obtain ⟨K, hK, he⟩ := Table.mem_entries_along he
    obtain ⟨m, hm, heq⟩ := List.mem_map.mp he
    cases heq
    have hmethod := hp.methods K (h.mem_classes hK) m hm
    have hclass := hp.classes K (h.mem_classes hK)
    simp only [MethodDecl.signature, String.toList_append, unbracketed_append, hmethod.1.unbracketed,
      hclass.1.unbracketed, margin, unbracketed_blanks, unbracketed_threeColumns, and_true, true_and]
    decide

/-- The line that heads a class is one line, and has a parenthesis. -/
theorem Analysis.Describes.headLine_bracketed (h : a.Describes p) (hparse : parse source = .ok p)
    (hc : c ∈ p.classes) : '\n' ∉ (a.headLine c.name).toList ∧ ')' ∈ (a.headLine c.name).toList := by
  have hp := identified_of_parse hparse
  refine ⟨?_, by simp [headLine]⟩
  have hextension : Unbracketed ((a.forest.parent? c.name).elim "" fun d => " extends " ++ d.name).toList := by
    have hc' : c ∈ a.forest.classes := by rwa [h.forest]
    cases hparent : a.forest.parent? c.name with
    | none => decide
    | some d =>
        obtain ⟨hd, _⟩ := (parent?_eq_some_iff h.ordered_forest hc').mp hparent
        rw [h.forest] at hd
        rw [Option.elim_some, String.toList_append, unbracketed_append]
        exact ⟨by decide, (hp.classes d hd).1.unbracketed⟩
  simp only [headLine, margin, String.toList_append, List.mem_append, not_or]
  refine ⟨⟨⟨⟨⟨(unbracketed_blanks _).1, (hp.classes c hc).1.unbracketed.1⟩, hextension.1⟩, by decide⟩,
    (unbracketed_toString _).1⟩, by decide⟩

/-- In the listing of a program that was read, the lines with a parenthesis head the classes, one for each. -/
theorem Analysis.Describes.headLines_describe (h : a.Describes p) (hparse : parse source = .ok p) :
    headLines a.describe.toList = a.listed.map fun C => (a.headLine C).toList := by
  have hlines : ∀ C ∈ a.listed, ('\n' ∉ (a.headLine C).toList ∧ ')' ∈ (a.headLine C).toList) ∧
      ∀ line ∈ a.memberLines C, Unbracketed line.toList := by
    intro C hC
    obtain ⟨c, hc, rfl⟩ := h.mem_listed_iff.mp hC
    exact ⟨h.headLine_bracketed hparse hc, h.unbracketed_memberLines hparse hc⟩
  rw [h.describe_eq, headLines_join, List.map_flatMap, List.filter_flatMap, List.map_eq_flatMap]
  · apply List.flatMap_congr
    intro C hC
    obtain ⟨⟨_, hhead⟩, hmembers⟩ := hlines C hC
    have hnone : ((a.memberLines C).map String.toList).filter (fun line => ')' ∈ line) = [] := by
      rw [List.filter_eq_nil_iff, List.forall_mem_map]
      intro line hline
      rw [decide_eq_true_eq]
      exact (hmembers line hline).2
    rw [classLines, List.map_cons, List.filter_cons, if_pos (decide_eq_true hhead), hnone]
  · intro line hline
    obtain ⟨C, hC, hline⟩ := List.mem_flatMap.mp hline
    obtain ⟨⟨hhead, _⟩, hmembers⟩ := hlines C hC
    rcases List.mem_cons.mp hline with rfl | hline
    · exact hhead
    · exact (hmembers line hline).1

end

/-- In the forest of a program, the subclass relation is the closure of what classes extend, and an order on the
declared classes. The family of a class lists its subclasses, once each, with the class in front and the others
behind what they extend. The depth of a class is the number of steps of its way up, and less than the number of
classes. The families of the roots list all classes once, and so the listing has one line that heads each class, set
in by its depth. -/
theorem forest_queries_follow_extends {p : Program} {F : Forest} (hF : Forest.ofProgram p = .ok F) :
    (∀ D C, F.isSubclass D C = true ↔ F.contains D = true ∧ Relation.ReflTransGen F.Extends D C) ∧
    (∀ C, F.contains C = true → F.isSubclass C C = true) ∧
    (∀ A B C, F.isSubclass A B = true → F.isSubclass B C = true → F.isSubclass A C = true) ∧
    (∀ D C, F.isSubclass D C = true → F.isSubclass C D = true → D = C) ∧
    (∀ C, (∀ D, D ∈ F.family C ↔ F.isSubclass D C = true) ∧ (F.family C).Nodup ∧
      (F.contains C = true → (F.family C).head? = some C) ∧
      ∀ D S, D ∈ F.family C → D ≠ C → F.Extends D S → [S, D].Sublist (F.family C)) ∧
    (∀ D n, F.depth? D = some n ↔ ∃ c L, F.Ascent c L ∧ c.name = D ∧ L.length = n + 1) ∧
    (∀ D, F.contains D = true → ∃ n < p.classes.length, F.depth? D = some n) ∧
    (F.roots.flatMap fun r => F.family r.name).Nodup ∧
    (F.roots.flatMap fun r => F.family r.name).Perm (p.classes.map (·.name)) ∧
    ∃ a, Analysis.ofProgram p = .ok a ∧ a.forest = F ∧
      a.describe = String.join (((F.roots.flatMap fun r => F.family r.name).flatMap fun C =>
        a.headLine C :: a.memberLines C).map (· ++ "\n")) ∧
      ∀ source, parse source = .ok p → headLines a.describe.toList =
        (F.roots.flatMap fun r => F.family r.name).map fun C => (a.headLine C).toList := by
  obtain ⟨hclasses, hordered, _⟩ := Forest.ofProgram_eq_ok hF
  have h : Forest.Ordered F.classes.reverse := by rwa [hclasses]
  have hperm := Forest.families_perm h
  refine ⟨fun D C => Forest.isSubclass_iff_reflTransGen h, fun C => Forest.isSubclass_self,
    fun A B C => Forest.isSubclass_trans h, fun D C => Forest.isSubclass_antisymm h, fun C => ⟨fun D =>
    Forest.mem_family_iff h, Forest.nodup_family h C, Forest.head?_family h, fun D S => Forest.sublist_family h⟩,
    fun D n => Forest.depth?_eq_some_iff h, fun D hD => ?_, hperm.nodup_iff.mpr (Forest.nodup_classNames h), ?_, ?_⟩
  · obtain ⟨n, hn⟩ := Forest.exists_depth? hD
    refine ⟨n, ?_, hn⟩
    have hlt := Forest.depth_lt_length h hn
    rwa [hclasses] at hlt
  · rwa [hclasses] at hperm ⊢
  · obtain ⟨a, ha, hdescribes⟩ := Analysis.ofProgram_of_forest hF
    have hforest : a.forest = F := hdescribes.forest.trans hclasses.symm
    refine ⟨a, ha, hforest, ?_, fun source hparse => ?_⟩
    · rw [← hforest]
      exact hdescribes.describe_eq
    · rw [← hforest]
      exact hdescribes.headLines_describe hparse

/-- Three classes that extend one another, and one on its own between them. -/
def gardenSource : String :=
  "class M\x7bpublic static void main(String[]a)\x7bSystem.out.println(0);\x7d\x7d" ++
    "class A\x7bint x;\x7dclass B extends A\x7bint f()\x7breturn x;\x7d\x7dclass C\x7b\x7dclass D extends B\x7b\x7d"

theorem forest_queries_follow_extends_garden : ∃ p F a, parse gardenSource = .ok p ∧ Forest.ofProgram p = .ok F ∧
    Analysis.ofProgram p = .ok a ∧ a.forest = F ∧
    (∀ D C, F.isSubclass D C = true ↔ F.contains D = true ∧ Relation.ReflTransGen F.Extends D C) ∧
    (∀ C, (∀ D, D ∈ F.family C ↔ F.isSubclass D C = true) ∧ (F.family C).Nodup ∧
      (F.contains C = true → (F.family C).head? = some C) ∧
      ∀ D S, D ∈ F.family C → D ≠ C → F.Extends D S → [S, D].Sublist (F.family C)) ∧
    (∀ D, F.contains D = true → ∃ n < p.classes.length, F.depth? D = some n) ∧
    (F.roots.flatMap fun r => F.family r.name).Perm (p.classes.map (·.name)) ∧
    headLines a.describe.toList = (F.roots.flatMap fun r => F.family r.name).map fun C => (a.headLine C).toList := by
  have hvalid : (isValid gardenSource).toOption = some true := by decide +kernel
  obtain ⟨p, a, hparse, ha, _⟩ := accepted_of_isValid hvalid
  obtain ⟨F, hF, _⟩ := bind_eq_ok.mp ha
  replace hF := mapError_eq_ok.mp hF
  obtain ⟨hclosure, _, _, _, hfamilies, _, hdepths, _, hperm, a', ha', hforest, _, hlines⟩ :=
    forest_queries_follow_extends hF
  cases ha.symm.trans ha'
  exact ⟨p, F, a, hparse, hF, ha, hforest, hclosure, hfamilies, hdepths, hperm, hlines _ hparse⟩

end Demitasse
