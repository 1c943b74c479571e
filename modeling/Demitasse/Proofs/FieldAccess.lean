import Demitasse.Compile
import Demitasse.Proofs.Checking
import Demitasse.Proofs.Reading
import Demitasse.Proofs.Resolution

/-! Fields of objects. In a checked program no field is declared twice along a lineage, so the fields of a
subclass continue those of its superclass. A method finds a field of its class at the same bytes in every
object of a subclass: behind the header, inside the object and apart from all other fields. -/

namespace Demitasse

open Forest

namespace Layout

/-- The bytes from `start` on hold the field of a name and nothing else. -/
structure FieldAt (l : Layout) (name : String) (ty : Ty) (start : Nat) : Prop where
  offset : l.fieldOffset? name = some start
  type : l.fieldType? name = some ty
  header : 8 ≤ start
  inside : start + ty.size ≤ l.size
  apart : ∀ other start' ty', other ≠ name → l.fieldOffset? other = some start' →
    l.fieldType? other = some ty' → start + ty.size ≤ start' ∨ start' + ty'.size ≤ start

variable {l l' : Layout} {name other : String} {ty ty' : Ty} {start start' : Nat}

theorem extent_append (front back : List Ty) : extent (front ++ back) = extent front + extent back := by
  induction front with
  | nil => rw [List.nil_append, extent, Nat.zero_add]
  | cons ty rest ih => rw [List.cons_append, extent, extent, ih, Nat.add_assoc]

theorem extent_take_mono (types : List Ty) {i j : Nat} (h : i ≤ j) :
    extent (types.take i) ≤ extent (types.take j) := by
  obtain ⟨d, rfl⟩ := Nat.exists_eq_add_of_le h
  rw [List.take_add, extent_append]
  exact Nat.le_add_right _ _

/-- The offset of a field counts the bytes of the header and of the fields in front of it. -/
theorem fieldOffset?_eq_some :
    l.fieldOffset? name = some start ↔
      ∃ i, l.fields.index? name = some i ∧ start = headerSize + extent (l.fields.values.take i) := by
  rw [fieldOffset?, Option.map_eq_some_iff]
  constructor
  · rintro ⟨i, hi, hstart⟩
    exact ⟨i, hi, hstart.symm⟩
  · rintro ⟨i, hi, hstart⟩
    exact ⟨i, hi, hstart.symm⟩

/-- A field ends where the next one starts. -/
theorem end_of_field {i : Nat} (hi : l.fields.index? name = some i) (hty : l.fieldType? name = some ty) :
    extent (l.fields.values.take (i + 1)) = extent (l.fields.values.take i) + ty.size := by
  rw [fieldType?] at hty
  rw [List.take_add_one, Table.getElem?_values hi, hty, extent_append]
  rfl

/-- Of two fields, the one with the smaller place ends before the other starts. -/
theorem end_le_start {i j : Nat} (hi : l.fields.index? name = some i) (hty : l.fieldType? name = some ty)
    (hlt : i < j) :
    extent (l.fields.values.take i) + ty.size ≤ extent (l.fields.values.take j) := by
  rw [← end_of_field hi hty]
  exact extent_take_mono _ hlt

theorem fieldAt (hoffset : l.fieldOffset? name = some start) (htype : l.fieldType? name = some ty) :
    l.FieldAt name ty start := by
  obtain ⟨i, hi, rfl⟩ := fieldOffset?_eq_some.mp hoffset
  refine ⟨hoffset, htype, Nat.le_add_right _ _, ?_, ?_⟩
  · have hend := end_le_start hi htype (Nat.lt_add_of_pos_right (Nat.succ_pos l.fields.values.length))
    have hall : l.fields.values.take (i + l.fields.values.length.succ) = l.fields.values := by
      apply List.take_of_length_le
      omega
    rw [hall] at hend
    rw [size]
    omega
  · intro other start' ty' hne hoffset' htype'
    obtain ⟨j, hj, rfl⟩ := fieldOffset?_eq_some.mp hoffset'
    rcases Nat.lt_trichotomy i j with hlt | rfl | hlt
    · left
      have hend := end_le_start hi htype hlt
      omega
    · exact absurd (Table.index?_inj hj hi) hne
    · right
      have hend := end_le_start hj htype' hlt
      omega

/-- A layout that continues another one has the fields of that one where they were. -/
theorem fieldOffset?_of_prefix (h : l.fields.entries <+: l'.fields.entries)
    (hoffset : l.fieldOffset? name = some start) : l'.fieldOffset? name = some start := by
  obtain ⟨i, hi, rfl⟩ := fieldOffset?_eq_some.mp hoffset
  have hkeys : l.fields.keys <+: l'.fields.keys := h.map _
  have htypes : l.fields.values <+: l'.fields.values := h.map _
  refine fieldOffset?_eq_some.mpr ⟨i, Table.index?_of_prefix hkeys hi, ?_⟩
  have hle : i ≤ l.fields.values.length := Nat.le_of_lt (Table.index?_lt hi)
  obtain ⟨added, hadded⟩ := htypes
  rw [← hadded, List.take_append_of_le_length hle]

theorem fieldType?_of_prefix (h : l.fields.entries <+: l'.fields.entries)
    (htype : l.fieldType? name = some ty) : l'.fieldType? name = some ty := by
  obtain ⟨added, hadded⟩ := h
  rw [fieldType?, Table.find?] at htype ⊢
  rw [← hadded, List.lookup_append, htype]
  rfl

/-- A declared field has an offset. -/
theorem exists_fieldOffset? (htype : l.fieldType? name = some ty) : ∃ start, l.fieldOffset? name = some start := by
  have hmem : name ∈ l.fields.keys := by
    rw [← Table.find?_isSome]
    rw [fieldType?] at htype
    rw [htype]
    rfl
  obtain ⟨i, hi⟩ := Option.isSome_iff_exists.mp ((Table.index?_isSome _ _).mpr hmem)
  exact ⟨_, fieldOffset?_eq_some.mpr ⟨i, hi, rfl⟩⟩

end Layout

namespace Analysis

variable {a : Analysis} {p : Program}

/-- In a checked program no two classes of a lineage declare a field of one name, and no class declares
two. -/
theorem Describes.fieldNames_nodup (h : a.Describes p) (hcheck : p.check a = .ok ()) (D : String) :
    (((a.forest.lineage D).reverse.flatMap ClassDecl.fieldEntries).map (·.1)).Nodup := by
  have hdecls := (Program.check_eq_ok.mp hcheck).1
  induction hL : a.forest.lineage D generalizing D with
  | nil => exact List.nodup_nil
  | cons c ancestors ih =>
      obtain ⟨hc, hancestors⟩ := h.lineage_eq_cons hL
      have hnames : c.fieldEntries.map (·.1) = c.fields.map (·.name) := List.map_map
      obtain ⟨⟨hown, _⟩, hfields⟩ :=
        (ClassDecl.checkFields_eq_ok _).mp (ClassDecl.checkDecl_eq_ok.mp (hdecls c hc)).1
      rw [List.reverse_cons, List.flatMap_append, List.map_append, List.nodup_append, List.flatMap_cons,
        List.flatMap_nil, List.append_nil, hnames]
      refine ⟨?_, hown, ?_⟩
      · cases hsuper : c.superName with
        | none =>
            rw [hsuper] at hancestors
            rw [hancestors]
            exact List.nodup_nil
        | some S =>
            rw [hsuper] at hancestors
            exact ih S hancestors.symm
      · -- an inherited name is among those that the check compares with
        rintro _ hinherited name hname rfl
        obtain ⟨f, hf, rfl⟩ := List.mem_map.mp hname
        apply (hfields f hf).2
        obtain ⟨e, he, heq⟩ := List.mem_map.mp hinherited
        obtain ⟨d, hd, hed⟩ := List.mem_flatMap.mp he
        obtain ⟨g, hg, rfl⟩ := List.mem_map.mp hed
        have hlineage : a.forest.lineage c.name = c :: ancestors := by
          rw [name_of_lineage hL, hL]
        rw [Forest.ancestors, hlineage, List.tail_cons]
        exact List.mem_flatMap.mpr ⟨d, List.mem_reverse.mp hd, List.mem_map.mpr ⟨g, hg, heq⟩⟩

/-- The fields of a class are those that its lineage declares, from the root down. -/
theorem Describes.fields_entries (h : a.Describes p) (hcheck : p.check a = .ok ()) {D : String} {l : Layout}
    (hl : a.catalog.layout? D = some l) :
    l.fields.entries = (a.forest.lineage D).reverse.flatMap ClassDecl.fieldEntries := by
  rw [h.layout?] at hl
  rw [Layout.fields_of_ofLineage hl]
  exact Table.entries_along _ (h.fieldNames_nodup hcheck D)

/-- A subclass has the fields of its superclass first. -/
theorem Describes.fields_prefix (h : a.Describes p) (hcheck : p.check a = .ok ()) {C D : String}
    (hsub : a.forest.isSubclass D C = true) {l l' : Layout} (hC : a.catalog.layout? C = some l)
    (hD : a.catalog.layout? D = some l') : l.fields.entries <+: l'.fields.entries := by
  rw [h.fields_entries hcheck hC, h.fields_entries hcheck hD]
  obtain ⟨added, hadded⟩ := h.lineage_suffix hsub
  rw [← hadded, List.reverse_append, List.flatMap_append]
  exact List.prefix_append _ _

/-- What a lineage declares as a field stands in the layout with its type. -/
theorem Describes.fieldType?_of_mem (h : a.Describes p) (hcheck : p.check a = .ok ()) {C : String} {l : Layout}
    (hl : a.catalog.layout? C = some l) {K : ClassDecl} (hK : K ∈ a.forest.lineage C) {f : VarDecl}
    (hf : f ∈ K.fields) : l.fieldType? f.name = some f.ty := by
  have hentries := h.fields_entries hcheck hl
  have hnodup := h.fieldNames_nodup hcheck C
  rw [← hentries] at hnodup
  refine Table.find?_of_mem hnodup ?_
  rw [hentries]
  exact List.mem_flatMap.mpr ⟨K, List.mem_reverse.mpr hK, List.mem_map.mpr ⟨f, hf, rfl⟩⟩

/-- A name that means a field inside a method is declared by a class of the lineage. -/
theorem Describes.field_of_resolve? (h : a.Describes p) (hids : (nodeIds p.visits).Nodup) {c : ClassDecl}
    (hc : c ∈ p.classes) {m : MethodDecl} (hm : m ∈ c.methods) {id : NodeId} (hid : id ∈ nodeIds m.visits)
    {name : String} {b : VarBinding} (hb : a.scopes.resolve? id name = some b) (hfield : b.storage = .field) :
    ∃ K ∈ a.forest.lineage c.name, ∃ f ∈ K.fields, f.bind .field = (name, b) := by
  rw [h.resolve? hids hc hm hid, Option.or_eq_some_iff] at hb
  rcases hb with hvar | ⟨-, hlineage⟩
  · have hmem := Table.mem_of_lookup hvar
    rcases List.mem_append.mp hmem with hmem | hmem
    · obtain ⟨v, _, hv⟩ := List.mem_map.mp hmem
      cases hv
      cases hfield
    · obtain ⟨v, _, hv⟩ := List.mem_map.mp hmem
      cases hv
      cases hfield
  · obtain ⟨K, hK, hlookup⟩ := List.exists_of_findSome?_eq_some hlineage
    obtain ⟨f, hf, hbind⟩ := List.mem_map.mp (Table.mem_of_lookup hlookup)
    exact ⟨K, hK, f, hf, hbind⟩

end Analysis

namespace Lower

/-- The address of a field is so many bytes behind the object's own address. -/
theorem run_fieldPtr {Γ : Context} {C name : String} (hC : Γ.className = some C) {l : Layout}
    (hl : Γ.analysis.catalog.layout? C = some l) {start : Nat} (hstart : l.fieldOffset? name = some start)
    (ty : Ty) (names : Names) :
    ∃ byte typed names', (fieldPtr Γ name ty).run names =
      .ok ((Code.ofInstrs [
        .elementPtr byte .i8 (.reg .this) [.const start],
        .bitcast typed .address (.reg byte) (.ptr ty.ir)], .reg typed), names') := by
  simp only [fieldPtr, hC, hl, Option.bind_some, hstart]
  exact ⟨_, _, _, rfl⟩

theorem run_variablePtr_field {Γ : Context} {C name : String} (hC : Γ.className = some C) {l : Layout}
    (hl : Γ.analysis.catalog.layout? C = some l) {start : Nat} (hstart : l.fieldOffset? name = some start)
    {id : NodeId} {b : VarBinding} (hb : Γ.analysis.scopes.resolve? id name = some b)
    (hfield : b.storage = .field) (names : Names) :
    ∃ byte typed names', (variablePtr Γ name id).run names =
      .ok ((Code.ofInstrs [
        .elementPtr byte .i8 (.reg .this) [.const start],
        .bitcast typed .address (.reg byte) (.ptr b.ty.ir)], ⟨.reg typed, b.ty⟩), names') := by
  have hplace : (place Γ.analysis.scopes name id).run names = .ok (.field name b.ty, names) := by
    simp only [place, StateT.run, Names.place, hb, hfield]
  obtain ⟨byte, typed, names', hptr⟩ := run_fieldPtr hC hl hstart b.ty names
  refine ⟨byte, typed, names', run_bind_eq_ok.mpr ⟨_, _, hplace, ?_⟩⟩
  exact run_bind_eq_ok.mpr ⟨_, _, hptr, rfl⟩

/-- A new object has as many bytes as the layout of its class says. -/
theorem run_allocObject {Γ : Context} {D : String} {l : Layout} (hl : Γ.analysis.catalog.layout? D = some l)
    (names : Names) :
    ∃ object rest names', (allocObject Γ D).run names =
      .ok ((.instr (.call (some object) (.returns .address) (.global "@calloc")
        [(.i32, .const 1), (.i32, .const l.size)]) :: rest, ⟨.reg object, .object D⟩), names') := by
  simp only [allocObject, hl]
  exact ⟨_, _, _, rfl⟩

end Lower

/-- A variable of class `C` that is accessed at a node is a field which a class of the lineage declares. The
access goes to the bytes from `start` on, which hold that field in objects with layout `l'` too. -/
structure Analysis.AccessesField (a : Analysis) (C : String) (l l' : Layout) (id : NodeId) (name : String)
    (b : VarBinding) (start : Nat) : Prop where
  declared : ∃ K ∈ a.forest.lineage C, ∃ f ∈ K.fields, f.bind .field = (name, b)
  offset : l.fieldOffset? name = some start
  bytes : l'.FieldAt name b.ty start
  code : ∀ names, ∃ byte typed names', (Lower.variablePtr ⟨a, some C⟩ name id).run names =
    .ok ((Code.ofInstrs [
      .elementPtr byte .i8 (.reg .this) [.const start],
      .bitcast typed .address (.reg byte) (.ptr b.ty.ir)], ⟨.reg typed, b.ty⟩), names')

/-- In a checked program the fields of a subclass continue those of its superclass and are the ones that
its lineage declares from the root down. Accesses in methods of the superclass stay inside the objects of
the subclass, at the bytes of the field that they mean, since no two nodes share their identity; in a program
that was read they never do. -/
theorem subclass_fields_in_bounds {p : Program} {a : Analysis} (ha : Analysis.ofProgram p = .ok a)
    (hcheck : p.check a = .ok ()) {C D : String} (hsub : a.forest.isSubclass D C = true) :
    ∃ l l', a.catalog.layout? C = some l ∧ a.catalog.layout? D = some l' ∧
      l.fields.entries <+: l'.fields.entries ∧
      (∀ name ∈ l.fields.keys, ∃ start ty,
        l.fieldOffset? name = some start ∧ l'.fieldOffset? name = some start ∧
        l.fieldType? name = some ty ∧ l'.fieldType? name = some ty) ∧
      l'.fields.entries = ((a.forest.lineage D).reverse.flatMap fun c => c.fields.map fun f => (f.name, f.ty)) ∧
      (∀ className names, ∃ object rest names', (Lower.allocObject ⟨a, className⟩ D).run names =
        .ok ((.instr (.call (some object) (.returns .address) (.global "@calloc")
          [(.i32, .const 1), (.i32, .const l'.size)]) :: rest, ⟨.reg object, .object D⟩), names')) ∧
      (∀ source, parse source = .ok p → (nodeIds p.visits).Nodup) ∧
      ((nodeIds p.visits).Nodup → ∀ c ∈ p.classes, c.name = C → ∀ m ∈ c.methods, ∀ id ∈ nodeIds m.visits,
        ∀ name b, a.scopes.resolve? id name = some b → b.storage = .field →
          ∃ start, a.AccessesField C l l' id name b start) := by
  have h := Analysis.describes ha
  obtain ⟨l, l', hl, hl'⟩ := h.layouts_of_isSubclass hsub
  have hprefix := h.fields_prefix hcheck hsub hl hl'
  refine ⟨l, l', hl, hl', hprefix, ?_, h.fields_entries hcheck hl', ?_, fun _ => nodeIds_nodup_of_parse, ?_⟩
  · intro name hname
    obtain ⟨ty, hty⟩ := Option.isSome_iff_exists.mp ((Table.find?_isSome _ _).mpr hname)
    obtain ⟨start, hstart⟩ := Layout.exists_fieldOffset? hty
    exact ⟨start, ty, hstart, Layout.fieldOffset?_of_prefix hprefix hstart, hty,
      Layout.fieldType?_of_prefix hprefix hty⟩
  · intro className names
    exact Lower.run_allocObject hl' names
  · rintro hids c hc rfl m hm id hid name b hb hfield
    obtain ⟨K, hK, f, hf, hbind⟩ := h.field_of_resolve? hids hc hm hid hb hfield
    have hty : l.fieldType? name = some b.ty := by
      cases hbind
      exact h.fieldType?_of_mem hcheck hl hK hf
    obtain ⟨start, hstart⟩ := Layout.exists_fieldOffset? hty
    refine ⟨start, ⟨K, hK, f, hf, hbind⟩, hstart, ?_, Lower.run_variablePtr_field rfl hl hstart hb hfield⟩
    exact Layout.fieldAt (Layout.fieldOffset?_of_prefix hprefix hstart)
      (Layout.fieldType?_of_prefix hprefix hty)

/-- A class `Point` with a method that reads the second of its two fields, and a class `Pixel` that inherits
from it and adds a third field. -/
def points : Program where
  main := ⟨⟨1, .origin⟩, "Main", "args", .block ⟨0, .origin⟩ []⟩
  classes :=
    [⟨⟨6, .origin⟩, "Point", none,
        [⟨⟨2, .origin⟩, .boolean, "visible"⟩, ⟨⟨3, .origin⟩, .int, "x"⟩],
        [⟨⟨5, .origin⟩, .int, "getX", [], [], [], .var ⟨4, .origin⟩ "x"⟩]⟩,
      ⟨⟨8, .origin⟩, "Pixel", some "Point", [⟨⟨7, .origin⟩, .intArray, "color"⟩], []⟩]
  span := .origin

theorem subclass_fields_in_bounds_points : ∃ a l l',
    Analysis.ofProgram points = .ok a ∧ points.check a = .ok () ∧ a.forest.isSubclass "Pixel" "Point" = true ∧
    a.catalog.layout? "Point" = some l ∧ a.catalog.layout? "Pixel" = some l' ∧
    l.fields.entries <+: l'.fields.entries ∧
    l'.fields.entries = [("visible", .boolean), ("x", .int), ("color", .intArray)] ∧
    ∃ start, a.AccessesField "Point" l l' 4 "x" ⟨.int, .field, 3⟩ start := by
  have hvalid : points.validate = .ok () := rfl
  obtain ⟨a, ha, hcheck⟩ := bind_eq_ok.mp hvalid
  have hcheck := mapError_eq_ok.mp hcheck
  have h := Analysis.describes ha
  have hsub : a.forest.isSubclass "Pixel" "Point" = true := by rw [h.forest]; decide
  have hids : (nodeIds points.visits).Nodup := by decide
  obtain ⟨l, l', hl, hl', hprefix, _, hentries, _, _, haccess⟩ := subclass_fields_in_bounds ha hcheck hsub
  have hPoint : points.classes[0] ∈ points.classes := List.mem_cons_self
  have hgetX : points.classes[0].methods[0] ∈ points.classes[0].methods := List.mem_cons_self
  have hnode : 4 ∈ nodeIds points.classes[0].methods[0].visits := by decide
  have hx : a.scopes.resolve? 4 "x" = some ⟨.int, .field, 3⟩ := by
    rw [h.resolve? hids hPoint hgetX hnode, h.forest]
    rfl
  refine ⟨a, l, l', ha, hcheck, hsub, hl, hl', hprefix, ?_, ?_⟩
  · rw [hentries, h.forest]
    rfl
  · exact haccess hids _ hPoint rfl _ hgetX 4 hnode "x" _ hx rfl

end Demitasse
