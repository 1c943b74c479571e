import Demitasse.Proofs.FieldAccess
import Demitasse.Proofs.Overrides
import Demitasse.Proofs.Visibility

/-!
Values and types during a run. A value suits a type if its own type may stand where that type is wanted, and null
suits the types of arrays and objects. A run makes new places in the heap and changes what stands in old ones,
but a place keeps its type, so a value goes on to suit a type once it does. In a sound heap every object has all
the fields of its class, with values that suit them.
-/

namespace Demitasse

/-- A value may stand where a type is wanted. -/
inductive Datum.Suits (F : Forest) (h : Heap) : Datum → Ty → Prop
  | null {ty : Ty} (hint : ty ≠ .int) (hboolean : ty ≠ .boolean) : Suits F h .null ty
  | typed {v : Datum} {own ty : Ty} (hown : h.tyOf? v = some own) (hty : F.assignable own ty = true) :
      Suits F h v ty

/-- Places keep their types from one heap to the next. -/
def Heap.Grows (h h' : Heap) : Prop :=
  ∀ (loc : Nat) (ty : Ty), h.tyOf? (.ref loc) = some ty → h'.tyOf? (.ref loc) = some ty

section
variable {F : Forest} {h h' h'' : Heap} {v : Datum} {ty ty' : Ty}

theorem Heap.Grows.refl (h : Heap) : h.Grows h :=
  fun _ _ hty => hty

theorem Heap.Grows.trans (hfirst : h.Grows h') (hsecond : h'.Grows h'') : h.Grows h'' :=
  fun loc ty hty => hsecond loc ty (hfirst loc ty hty)

theorem Heap.Grows.tyOf? (hgrows : h.Grows h') (hty : h.tyOf? v = some ty) : h'.tyOf? v = some ty := by
  cases v with
  | ref loc => exact hgrows loc ty hty
  | _ => exact hty

theorem Heap.grows_append (h added : Heap) : h.Grows (h ++ added) := by
  intro loc ty hty
  obtain ⟨c, hc, rfl⟩ := Option.map_eq_some_iff.mp hty
  have hlt : loc < h.length := (List.getElem?_eq_some_iff.mp hc).1
  rw [Heap.tyOf?, List.getElem?_append_left hlt]
  exact hty

theorem Heap.grows_set {loc : Nat} {c c' : Cell} (hc : h[loc]? = some c) (hty : c'.ty = c.ty) :
    h.Grows (h.set loc c') := by
  intro loc' ty' hty'
  rw [Heap.tyOf?, List.getElem?_set]
  by_cases heq : loc = loc'
  · subst heq
    have hlt : loc < h.length := (List.getElem?_eq_some_iff.mp hc).1
    rw [Heap.tyOf?, hc] at hty'
    rw [if_pos rfl, if_pos hlt, Option.map_some, hty]
    exact hty'
  · rw [if_neg heq]
    exact hty'

theorem Datum.Suits.mono (hgrows : h.Grows h') (hv : v.Suits F h ty) : v.Suits F h' ty := by
  cases hv with
  | null hint hboolean => exact .null hint hboolean
  | typed hown hty => exact .typed (hgrows.tyOf? hown) hty

theorem Datum.Suits.widen (hordered : Forest.Ordered F.classes.reverse) (hv : v.Suits F h ty)
    (hty : F.assignable ty ty' = true) : v.Suits F h ty' := by
  cases hv with
  | null hint hboolean =>
      rcases Forest.assignable_cases hty with rfl | ⟨A, B, _, rfl, _⟩
      · exact .null hint hboolean
      · exact .null Ty.noConfusion Ty.noConfusion
  | typed hown hown' => exact .typed hown (Forest.assignable_trans hordered hown' hty)

theorem Heap.tyOf?_eq_int (hty : h.tyOf? v = some .int) : ∃ n, v = .int n := by
  cases v with
  | int n => exact ⟨n, rfl⟩
  | ref loc =>
      obtain ⟨c, _, hc⟩ := Option.map_eq_some_iff.mp hty
      cases c <;> cases hc
  | _ => cases hty

theorem Heap.tyOf?_eq_boolean (hty : h.tyOf? v = some .boolean) : ∃ b, v = .bool b := by
  cases v with
  | bool b => exact ⟨b, rfl⟩
  | ref loc =>
      obtain ⟨c, _, hc⟩ := Option.map_eq_some_iff.mp hty
      cases c <;> cases hc
  | _ => cases hty

theorem Heap.tyOf?_eq_intArray (hty : h.tyOf? v = some .intArray) :
    ∃ loc elements, v = .ref loc ∧ h[loc]? = some (.array elements) := by
  cases v with
  | ref loc =>
      obtain ⟨c, hc, hc'⟩ := Option.map_eq_some_iff.mp hty
      cases c with
      | array elements => exact ⟨loc, elements, rfl, hc⟩
      | object => cases hc'
  | _ => cases hty

theorem Heap.tyOf?_eq_object {D : String} (hty : h.tyOf? v = some (.object D)) :
    ∃ loc fields, v = .ref loc ∧ h[loc]? = some (.object D fields) := by
  cases v with
  | ref loc =>
      obtain ⟨c, hc, hc'⟩ := Option.map_eq_some_iff.mp hty
      cases c with
      | array => cases hc'
      | object D' fields =>
          cases hc'
          exact ⟨loc, fields, rfl, hc⟩
  | _ => cases hty

theorem Datum.Suits.int (hv : v.Suits F h .int) : ∃ n, v = .int n := by
  cases hv with
  | null hint _ => exact absurd rfl hint
  | typed hown hty =>
      rcases Forest.assignable_cases hty with rfl | ⟨_, _, _, heq, _⟩
      · exact Heap.tyOf?_eq_int hown
      · cases heq

theorem Datum.Suits.boolean (hv : v.Suits F h .boolean) : ∃ b, v = .bool b := by
  cases hv with
  | null _ hboolean => exact absurd rfl hboolean
  | typed hown hty =>
      rcases Forest.assignable_cases hty with rfl | ⟨_, _, _, heq, _⟩
      · exact Heap.tyOf?_eq_boolean hown
      · cases heq

theorem Datum.Suits.intArray (hv : v.Suits F h .intArray) :
    v = .null ∨ ∃ loc elements, v = .ref loc ∧ h[loc]? = some (.array elements) := by
  cases hv with
  | null => exact .inl rfl
  | typed hown hty =>
      rcases Forest.assignable_cases hty with rfl | ⟨_, _, _, heq, _⟩
      · exact .inr (Heap.tyOf?_eq_intArray hown)
      · cases heq

theorem Datum.Suits.object {C : String} (hv : v.Suits F h (.object C)) :
    v = .null ∨ ∃ loc D fields, v = .ref loc ∧ h[loc]? = some (.object D fields) ∧ F.isSubclass D C = true := by
  cases hv with
  | null => exact .inl rfl
  | typed hown hty =>
      rcases Forest.assignable_cases hty with rfl | ⟨D, _, rfl, heq, _⟩
      · obtain ⟨loc, fields, rfl, hloc⟩ := Heap.tyOf?_eq_object hown
        exact .inr ⟨loc, C, fields, rfl, hloc, hty⟩
      · obtain ⟨loc, fields, rfl, hloc⟩ := Heap.tyOf?_eq_object hown
        exact .inr ⟨loc, D, fields, rfl, hloc, hty⟩

theorem Datum.suits_int (n : BitVec 32) : (Datum.int n).Suits F h .int :=
  .typed rfl rfl

theorem Datum.suits_bool (b : Bool) : (Datum.bool b).Suits F h .boolean :=
  .typed rfl rfl

theorem Ty.suits_initial (ty : Ty) : ty.initial.Suits F h ty := by
  cases ty with
  | int => exact Datum.suits_int 0
  | boolean => exact Datum.suits_bool false
  | _ => exact .null Ty.noConfusion Ty.noConfusion

end

/-- The objects of a class have its fields and those of its ancestors. -/
def Cell.Sound (F : Forest) (h : Heap) : Cell → Prop
  | .object D fields =>
    ∀ K ∈ F.lineage D, ∀ f ∈ K.fields, ∃ v, fields.find? f.name = some v ∧ v.Suits F h f.ty
  | .array _ => True

/-- All objects have their fields. -/
def Heap.Sound (F : Forest) (h : Heap) : Prop :=
  ∀ c ∈ h, c.Sound F h

section
variable {F : Forest} {h h' : Heap}

theorem Cell.Sound.mono (hgrows : h.Grows h') {c : Cell} (hc : c.Sound F h) : c.Sound F h' := by
  cases c with
  | array => exact trivial
  | object D fields =>
      intro K hK f hf
      obtain ⟨v, hfind, hv⟩ := hc K hK f hf
      exact ⟨v, hfind, hv.mono hgrows⟩

theorem Heap.sound_nil : Heap.Sound F [] :=
  List.forall_mem_nil _

theorem Heap.Sound.append (hh : h.Sound F) {c : Cell} (hc : c.Sound F h) : Heap.Sound F (h ++ [c]) := by
  have hgrows := Heap.grows_append h [c]
  intro d hd
  rcases List.mem_append.mp hd with hd | hd
  · exact (hh d hd).mono hgrows
  · rw [List.mem_singleton.mp hd]
    exact hc.mono hgrows

theorem Heap.Sound.set (hh : h.Sound F) {loc : Nat} {c c' : Cell} (hc : h[loc]? = some c) (hty : c'.ty = c.ty)
    (hc' : c'.Sound F h) : Heap.Sound F (h.set loc c') := by
  have hgrows := Heap.grows_set hc hty
  intro d hd
  rcases List.mem_or_eq_of_mem_set hd with hd | rfl
  · exact (hh d hd).mono hgrows
  · exact hc'.mono hgrows

end

namespace Analysis

variable {a : Analysis} {p : Program}

/-- No two fields along a lineage share a name. -/
theorem Describes.field_unique (h : a.Describes p) (hcheck : p.check a = .ok ()) {D : String} {K L : ClassDecl}
    (hK : K ∈ a.forest.lineage D) (hL : L ∈ a.forest.lineage D) {f g : VarDecl} (hf : f ∈ K.fields)
    (hg : g ∈ L.fields) (hname : f.name = g.name) : f.ty = g.ty := by
  have hmem : ∀ {K : ClassDecl} {f : VarDecl}, K ∈ a.forest.lineage D → f ∈ K.fields →
      (f.name, f.ty) ∈ (a.forest.lineage D).reverse.flatMap ClassDecl.fieldEntries := fun hK hf =>
    List.mem_flatMap.mpr ⟨_, List.mem_reverse.mpr hK, List.mem_map_of_mem hf⟩
  have hnodup := h.fieldNames_nodup hcheck D
  have hfirst := Table.find?_of_mem (t := ⟨_⟩) hnodup (hmem hK hf)
  have hsecond := Table.find?_of_mem (t := ⟨_⟩) hnodup (hmem hL hg)
  rw [hname, hsecond] at hfirst
  exact (Option.some.inj hfirst).symm

/-- A new object has its fields. -/
theorem Describes.exists_instance? (h : a.Describes p) (hcheck : p.check a = .ok ()) {C : String}
    (hC : a.forest.contains C = true) (heap : Heap) :
    ∃ c, p.instance? C = some c ∧ c.ty = .object C ∧ c.Sound a.forest heap := by
  rw [Program.instance?, h.forest_eq, if_pos hC]
  refine ⟨_, rfl, rfl, ?_⟩
  intro K hK f hf
  refine ⟨f.ty.initial, ?_, f.ty.suits_initial⟩
  apply Table.find?_of_mem
  · have hnodup := h.fieldNames_nodup hcheck C
    rw [List.map_flatMap] at hnodup
    rw [Table.keys, List.map_flatMap]
    simpa only [ClassDecl.fieldEntries, List.map_map, Function.comp_def] using hnodup
  · exact List.mem_flatMap.mpr ⟨K, List.mem_reverse.mpr hK, List.mem_map_of_mem hf⟩

/-- An object whose field is changed to a value that suits it has its fields still. -/
theorem Describes.sound_insert (h : a.Describes p) (hcheck : p.check a = .ok ()) {heap : Heap} {D : String}
    {fields : Table Datum} (hsound : (Cell.object D fields).Sound a.forest heap) {K : ClassDecl}
    (hK : K ∈ a.forest.lineage D) {f : VarDecl} (hf : f ∈ K.fields) {v : Datum}
    (hv : v.Suits a.forest heap f.ty) : (Cell.object D (fields.insert f.name v)).Sound a.forest heap := by
  intro L hL g hg
  rw [Table.find?_insert]
  by_cases hname : g.name = f.name
  · rw [if_pos hname]
    exact ⟨v, rfl, h.field_unique hcheck hK hL hf hg hname.symm ▸ hv⟩
  · rw [if_neg hname]
    exact hsound L hL g hg

end Analysis

end Demitasse
