import Mathlib.Data.List.Induction
import Mathlib.Data.List.Nodup
import Mathlib.Logic.Function.Basic
import Demitasse.Proofs.FieldAccess

/-! Histories of layouts. Layouts are started, inherited and added to in any order, also after others have
inherited from them. Whatever the order, no name comes twice, the fields take up the bytes behind the
header one after the other and the methods take up the slots from zero on. An addition can change the
type of a field and move all that come after it, but it moves no method and swaps no fields, and it
concerns one layout only. -/

namespace Demitasse

namespace Table

variable {α : Type} {t : Table α}

theorem nodup_keys_insert (h : t.keys.Nodup) (key : String) (a : α) : (t.insert key a).keys.Nodup := by
  rw [keys_insert]
  split_ifs with hmem
  · exact h
  · rw [← List.concat_eq_append]
    exact h.concat hmem

/-- If no name comes twice, the place of a name is the only one where it stands. -/
theorem index?_of_getElem? (h : t.keys.Nodup) {k : String} {i : Nat} (hk : t.keys[i]? = some k) :
    t.index? k = some i := by
  have hmem : k ∈ t.keys := List.mem_of_getElem? hk
  obtain ⟨j, hj⟩ := Option.isSome_iff_exists.mp ((index?_isSome t k).mpr hmem)
  have hlt : i < t.keys.length := (List.getElem?_eq_some_iff.mp hk).1
  have hij : i = j := (List.getElem?_inj hlt h).mp (hk.trans (getElem?_keys hj).symm)
  rw [hj, hij]

/-- If no name comes twice, the places of the names count up from zero. -/
theorem map_index?_keys (h : t.keys.Nodup) : t.keys.map t.index? = (List.range t.size).map some := by
  have hlength : t.keys.length = t.size := List.length_map _
  apply List.ext_getElem?
  intro i
  rw [List.getElem?_map, List.getElem?_map]
  by_cases hi : i < t.size
  · have hk : t.keys[i]? = some (t.keys[i]) := List.getElem?_eq_getElem (hlength ▸ hi)
    rw [hk, Option.map_some, index?_of_getElem? h hk, List.getElem?_range hi, Option.map_some]
  · rw [List.getElem?_eq_none (by omega), List.getElem?_eq_none (by rw [List.length_range]; omega)]
    rfl

end Table

/-- Intervals in a row, none of them empty, from one byte to another: each one starts where the one before
it stops. -/
def Tiles (start : Nat) : List (Nat × Nat) → Nat → Prop
  | [], stop => start = stop
  | piece :: rest, stop => piece.1 = start ∧ start < piece.2 ∧ Tiles piece.2 rest stop

theorem Tiles.le {start stop : Nat} {pieces : List (Nat × Nat)} (h : Tiles start pieces stop) : start ≤ stop := by
  induction pieces generalizing start with
  | nil => exact Nat.le_of_eq h
  | cons piece rest ih =>
      obtain ⟨_, hlt, hrest⟩ := h
      exact Nat.le_trans (Nat.le_of_lt hlt) (ih hrest)

/-- Intervals in a row leave nothing out. -/
theorem Tiles.mem_iff {start stop : Nat} {pieces : List (Nat × Nat)} (h : Tiles start pieces stop) (byte : Nat) :
    (start ≤ byte ∧ byte < stop) ↔ ∃ piece ∈ pieces, piece.1 ≤ byte ∧ byte < piece.2 := by
  induction pieces generalizing start with
  | nil =>
      have hempty : start = stop := h
      simp only [List.not_mem_nil, false_and, exists_false, iff_false]
      omega
  | cons piece rest ih =>
      obtain ⟨hstart, hlt, hrest⟩ := h
      have hle := hrest.le
      rw [List.exists_mem_cons_iff, ← ih hrest]
      omega

theorem Ty.size_pos (ty : Ty) : 0 < ty.size := by
  cases ty <;> exact Nat.succ_pos _

namespace Layout

variable {l : Layout}

/-- The bytes of a field, from the first one to the one behind the last. -/
def interval? (l : Layout) (name : String) : Option (Nat × Nat) :=
  match l.fieldOffset? name, l.fieldType? name with
  | some start, some ty => some (start, start + ty.size)
  | _, _ => none

/-- The bytes of fields that are put down one after the other. -/
def intervalsFrom (start : Nat) : List Ty → List (Nat × Nat)
  | [] => []
  | ty :: rest => (start, start + ty.size) :: intervalsFrom (start + ty.size) rest

theorem tiles_intervalsFrom (types : List Ty) (start : Nat) :
    Tiles start (intervalsFrom start types) (start + extent types) := by
  induction types generalizing start with
  | nil => rfl
  | cons ty rest ih =>
      refine ⟨rfl, Nat.lt_add_of_pos_right ty.size_pos, ?_⟩
      rw [extent, ← Nat.add_assoc]
      exact ih (start + ty.size)

theorem getElem?_intervalsFrom (types : List Ty) (start i : Nat) :
    (intervalsFrom start types)[i]? =
      types[i]?.map fun ty => (start + extent (types.take i), start + extent (types.take i) + ty.size) := by
  induction types generalizing start i with
  | nil => rfl
  | cons ty rest ih =>
      cases i with
      | zero => rfl
      | succ i =>
          rw [intervalsFrom, List.getElem?_cons_succ, List.getElem?_cons_succ, List.take_succ_cons, extent, ih]
          simp only [Nat.add_assoc]

/-- The fields are put down one after the other behind the header. -/
theorem map_interval?_keys (h : l.fields.keys.Nodup) :
    l.fields.keys.map l.interval? = (intervalsFrom headerSize l.fields.values).map some := by
  have hlength : l.fields.keys.length = l.fields.values.length := by simp [Table.keys, Table.values]
  apply List.ext_getElem?
  intro i
  rw [List.getElem?_map, List.getElem?_map, getElem?_intervalsFrom]
  cases hk : l.fields.keys[i]? with
  | none =>
      rw [List.getElem?_eq_none_iff, hlength] at hk
      rw [List.getElem?_eq_none hk]
      rfl
  | some name =>
      have hi := Table.index?_of_getElem? h hk
      have hty : l.fields.values[i]? = l.fieldType? name := Table.getElem?_values hi
      have hoffset := fieldOffset?_eq_some.mpr ⟨i, hi, rfl⟩
      rw [List.getElem?_eq_getElem (Table.index?_lt hi)] at hty ⊢
      rw [Option.map_some, interval?, hoffset, ← hty]
      rfl

/-- The bytes of a field hold the given one. -/
def Holds (l : Layout) (name : String) (byte : Nat) : Prop :=
  ∃ start stop, l.interval? name = some (start, stop) ∧ start ≤ byte ∧ byte < stop

theorem interval?_eq_some {name : String} {start stop : Nat} :
    l.interval? name = some (start, stop) ↔
      ∃ ty, l.fieldOffset? name = some start ∧ l.fieldType? name = some ty ∧ stop = start + ty.size := by
  rw [interval?]
  cases l.fieldOffset? name with
  | none => simp
  | some offset =>
      cases l.fieldType? name with
      | none => simp
      | some ty =>
          constructor
          · rintro ⟨⟩
            exact ⟨ty, rfl, rfl, rfl⟩
          · rintro ⟨_, ⟨⟩, ⟨⟩, rfl⟩
            rfl

/-- No two fields share a byte. -/
theorem Holds.unique {name other : String} {byte : Nat} (h : l.Holds name byte) (h' : l.Holds other byte) :
    other = name := by
  obtain ⟨start, stop, hinterval, hle, hlt⟩ := h
  obtain ⟨start', stop', hinterval', hle', hlt'⟩ := h'
  obtain ⟨ty, hoffset, hty, rfl⟩ := interval?_eq_some.mp hinterval
  obtain ⟨ty', hoffset', hty', rfl⟩ := interval?_eq_some.mp hinterval'
  by_contra hne
  have hapart := (fieldAt hoffset hty).apart other start' ty' hne hoffset' hty'
  omega

/-- A layout without repetitions, gaps and overlaps. -/
structure Tidy (l : Layout) : Prop where
  fields_nodup : l.fields.keys.Nodup
  methods_nodup : l.methods.keys.Nodup
  tiled : ∃ pieces, l.fields.keys.map l.interval? = pieces.map some ∧ Tiles 8 pieces l.size
  covered : ∀ byte, (8 ≤ byte ∧ byte < l.size) ↔ ∃! name, l.Holds name byte
  slots : l.methods.keys.map l.slot? = (List.range l.slotCount).map some

/-- Without repetitions there are no gaps and no overlaps. -/
theorem tidy_of_nodup (hfields : l.fields.keys.Nodup) (hmethods : l.methods.keys.Nodup) : l.Tidy := by
  have hpieces := map_interval?_keys hfields
  have htiles : Tiles 8 (intervalsFrom headerSize l.fields.values) l.size := tiles_intervalsFrom _ _
  refine ⟨hfields, hmethods, ⟨_, hpieces, htiles⟩, fun byte => ?_, Table.map_index?_keys hmethods⟩
  rw [htiles.mem_iff]
  constructor
  · rintro ⟨⟨start, stop⟩, hpiece, hle, hlt⟩
    have hmem : some (start, stop) ∈ l.fields.keys.map l.interval? := by
      rw [hpieces]
      exact List.mem_map_of_mem hpiece
    obtain ⟨name, _, hinterval⟩ := List.mem_map.mp hmem
    have hholds : l.Holds name byte := ⟨start, stop, hinterval, hle, hlt⟩
    exact ⟨name, hholds, fun other hother => hholds.unique hother⟩
  · rintro ⟨name, ⟨start, stop, hinterval, hle, hlt⟩, _⟩
    obtain ⟨ty, hoffset, _, _⟩ := interval?_eq_some.mp hinterval
    obtain ⟨i, hi, _⟩ := fieldOffset?_eq_some.mp hoffset
    have hname : name ∈ l.fields.keys := List.mem_of_getElem? (Table.getElem?_keys hi)
    have hmem : some (start, stop) ∈ l.fields.keys.map l.interval? := List.mem_map.mpr ⟨name, hname, hinterval⟩
    rw [hpieces] at hmem
    obtain ⟨piece, hpiece, heq⟩ := List.mem_map.mp hmem
    cases heq
    exact ⟨_, hpiece, hle, hlt⟩

/-- The methods of a layout have their slots in another one, and its fields come first there, in their
order. -/
structure Continues (l' l : Layout) : Prop where
  slots : ∀ name slot, l.slot? name = some slot → l'.slot? name = some slot
  fields : l.fields.keys <+: l'.fields.keys

theorem Continues.refl (l : Layout) : l.Continues l :=
  ⟨fun _ _ h => h, List.prefix_refl _⟩

theorem Continues.trans {l l' l'' : Layout} (h : l'.Continues l) (h' : l''.Continues l') : l''.Continues l :=
  ⟨fun name slot hslot => h'.slots name slot (h.slots name slot hslot), h.fields.trans h'.fields⟩

end Layout

/-- What can be added to a layout. -/
inductive Addition where
  | field (name : String) (ty : Ty)
  | method (name : String) (signature : MethodSig)

namespace Layout

/-- Adds a field or a method. -/
def add (l : Layout) : Addition → Layout
  | .field name ty => l.addField name ty
  | .method name signature => l.addMethod name signature

/-- What is added is there afterwards, and under all other names there is what there was. -/
def Has (l' : Layout) (addition : Addition) (l : Layout) : Prop :=
  match addition with
  | .field name ty => l'.fieldType? = Function.update l.fieldType? name (some ty) ∧ l'.method? = l.method?
  | .method name signature =>
      l'.method? = Function.update l.method? name (some signature) ∧ l'.fieldType? = l.fieldType?

theorem has_add (l : Layout) (addition : Addition) : (l.add addition).Has addition l := by
  cases addition with
  | field name ty =>
      refine ⟨funext fun other => ?_, rfl⟩
      rw [Function.update_apply]
      exact Table.find?_insert l.fields name other ty
  | method name signature =>
      refine ⟨funext fun other => ?_, rfl⟩
      rw [Function.update_apply]
      exact Table.find?_insert l.methods name other signature

theorem continues_add (l : Layout) (addition : Addition) : (l.add addition).Continues l := by
  cases addition with
  | field name ty => exact ⟨fun _ _ hslot => hslot, Table.keys_prefix_insert _ _ _⟩
  | method name signature =>
      refine ⟨fun other slot hslot => ?_, List.prefix_refl _⟩
      exact Table.index?_of_prefix (Table.keys_prefix_insert l.methods name signature) hslot

theorem Tidy.add {l : Layout} (h : l.Tidy) (addition : Addition) : (l.add addition).Tidy := by
  cases addition with
  | field name ty => exact tidy_of_nodup (Table.nodup_keys_insert h.fields_nodup name ty) h.methods_nodup
  | method name signature =>
      exact tidy_of_nodup h.fields_nodup (Table.nodup_keys_insert h.methods_nodup name signature)

end Layout

/-- What can be done to layouts. A layout is named by its place among all of them. -/
inductive LayoutOp where
  | start (className : String)
  | inherit (className : String) (parent : Nat)
  | add (target : Nat) (addition : Addition)

namespace LayoutOp

/-- The layout that an operation adds to. -/
def target? : LayoutOp → Option Nat
  | .start _ | .inherit _ _ => none
  | .add target _ => some target

/-- Does an operation. A new layout comes last, and nothing happens if the layout in question is not
there. -/
def run (layouts : List Layout) : LayoutOp → List Layout
  | .start className => layouts ++ [.empty className]
  | .inherit className parent => layouts ++ (layouts[parent]?.map (Layout.inherit className)).toList
  | .add target addition => layouts.modify target (·.add addition)

/-- The layouts after a history of operations. -/
def runAll (ops : List LayoutOp) : List Layout :=
  ops.foldl run []

theorem runAll_concat (ops : List LayoutOp) (op : LayoutOp) : runAll (ops ++ [op]) = run (runAll ops) op := by
  rw [runAll, List.foldl_append]
  rfl

theorem getElem?_run_add {layouts : List Layout} {i : Nat} {l : Layout} (h : layouts[i]? = some l)
    (addition : Addition) : (run layouts (.add i addition))[i]? = some (l.add addition) := by
  rw [run, List.getElem?_modify_eq, h]
  rfl

/-- An operation leaves a layout as it is, unless it adds to it. -/
theorem getElem?_run_of_ne {layouts : List Layout} {i : Nat} {l : Layout} (h : layouts[i]? = some l)
    {op : LayoutOp} (hne : op.target? ≠ some i) : (run layouts op)[i]? = some l := by
  have hlt : i < layouts.length := (List.getElem?_eq_some_iff.mp h).1
  cases op with
  | start className => rw [run, List.getElem?_append_left hlt, h]
  | inherit className parent => rw [run, List.getElem?_append_left hlt, h]
  | add target addition =>
      have htarget : target ≠ i := fun heq => hne (congrArg some heq)
      rw [run, List.getElem?_modify_ne _ _ htarget, h]

/-- What was at the place of a layout before an operation goes on there. -/
theorem exists_continues_run {layouts : List Layout} {i : Nat} {l : Layout} (h : layouts[i]? = some l)
    (op : LayoutOp) : ∃ l', (run layouts op)[i]? = some l' ∧ l'.Continues l := by
  by_cases hne : op.target? = some i
  · cases op with
    | start className => cases hne
    | inherit className parent => cases hne
    | add target addition =>
        cases hne
        exact ⟨_, getElem?_run_add h addition, l.continues_add addition⟩
  · exact ⟨l, getElem?_run_of_ne h hne, .refl l⟩

theorem tidy_run {layouts : List Layout} (h : ∀ l ∈ layouts, l.Tidy) (op : LayoutOp) :
    ∀ l ∈ run layouts op, l.Tidy := by
  intro l hl
  cases op with
  | start className =>
      rcases List.mem_append.mp hl with hl | hl
      · exact h l hl
      · rw [List.mem_singleton.mp hl]
        exact Layout.tidy_of_nodup List.nodup_nil List.nodup_nil
  | inherit className parent =>
      rcases List.mem_append.mp hl with hl | hl
      · exact h l hl
      · rw [Option.mem_toList, Option.map_eq_some_iff] at hl
        obtain ⟨ancestor, hancestor, rfl⟩ := hl
        have htidy := h ancestor (List.mem_of_getElem? hancestor)
        exact Layout.tidy_of_nodup htidy.fields_nodup htidy.methods_nodup
  | add target addition =>
      obtain ⟨i, hi⟩ := List.getElem?_of_mem hl
      rw [run, List.getElem?_modify, Option.map_eq_map, Option.map_eq_some_iff] at hi
      obtain ⟨old, hold, rfl⟩ := hi
      have htidy := h old (List.mem_of_getElem? hold)
      split_ifs
      · exact htidy.add addition
      · exact htidy

theorem tidy_runAll (ops : List LayoutOp) : ∀ l ∈ runAll ops, l.Tidy := by
  induction ops using List.reverseRecOn with
  | nil => exact fun _ h => absurd h List.not_mem_nil
  | append_singleton ops op ih =>
      rw [runAll_concat]
      exact tidy_run ih op

theorem exists_continues_runAll {ops : List LayoutOp} {i : Nat} {l : Layout} (h : (runAll ops)[i]? = some l)
    (more : List LayoutOp) : ∃ l', (runAll (ops ++ more))[i]? = some l' ∧ l'.Continues l := by
  induction more using List.reverseRecOn with
  | nil => exact ⟨l, by rwa [List.append_nil], .refl l⟩
  | append_singleton more op ih =>
      obtain ⟨l', hl', hcontinues⟩ := ih
      obtain ⟨l'', hl'', hcontinues'⟩ := exists_continues_run hl' op
      rw [← List.append_assoc, runAll_concat]
      exact ⟨l'', hl'', hcontinues.trans hcontinues'⟩

theorem getElem?_runAll_of_ne {ops : List LayoutOp} {i : Nat} {l : Layout} (h : (runAll ops)[i]? = some l)
    {more : List LayoutOp} (hmore : ∀ op ∈ more, op.target? ≠ some i) : (runAll (ops ++ more))[i]? = some l := by
  induction more using List.reverseRecOn with
  | nil => rwa [List.append_nil]
  | append_singleton more op ih =>
      rw [List.forall_mem_append, List.forall_mem_singleton] at hmore
      rw [← List.append_assoc, runAll_concat]
      exact getElem?_run_of_ne (ih hmore.1) hmore.2

/-- **Every history keeps layouts in order.** At each point all layouts are without repetitions, gaps and
overlaps. Whatever is done afterwards, the methods of a layout keep their slots and its fields their order,
and nothing changes in it unless something is added to it. What inherits from it starts with what it has,
and what is added to it is there afterwards. -/
theorem layouts_tidy_after_any_history (ops : List LayoutOp) :
    (∀ l ∈ runAll ops, l.Tidy) ∧
    ∀ i l, (runAll ops)[i]? = some l →
      (∀ more, ∃ l', (runAll (ops ++ more))[i]? = some l' ∧ l'.Continues l) ∧
      (∀ more, (∀ op ∈ more, op.target? ≠ some i) → (runAll (ops ++ more))[i]? = some l) ∧
      (∀ className, ∃ child, runAll (ops ++ [.inherit className i]) = runAll ops ++ [child] ∧
        child.className = className ∧ child.superName = some l.className ∧
        child.fields = l.fields ∧ child.methods = l.methods) ∧
      (∀ addition, ∃ l', (runAll (ops ++ [.add i addition]))[i]? = some l' ∧ l'.Has addition l) := by
  refine ⟨tidy_runAll ops, fun i l h => ⟨exists_continues_runAll h, fun _ => getElem?_runAll_of_ne h, ?_, ?_⟩⟩
  · intro className
    refine ⟨l.inherit className, ?_, rfl, rfl, rfl, rfl⟩
    rw [runAll_concat, run, h]
    rfl
  · intro addition
    rw [runAll_concat]
    exact ⟨_, getElem?_run_add h addition, l.has_add addition⟩

/-- `Derived` gives a wider type to the first field that it inherits, overrides the inherited method and adds
one, while `Base` goes on growing. -/
def retypingHistory : List LayoutOp :=
  [.start "Base", .add 0 (.field "flag" .boolean), .add 0 (.field "count" .int),
    .add 0 (.method "get" ⟨"Base.get", .int, []⟩), .inherit "Derived" 0, .add 0 (.field "late" .int),
    .add 1 (.field "flag" .intArray), .add 1 (.method "set" ⟨"Derived.set", .int, [("n", .int)]⟩),
    .add 1 (.method "get" ⟨"Derived.get", .int, []⟩)]

/-- The layout that `Derived` gets. -/
def retypedLayout : Layout :=
  ⟨"Derived", some "Base", ⟨[("flag", .intArray), ("count", .int)]⟩,
    ⟨[("get", ⟨"Derived.get", .int, []⟩), ("set", ⟨"Derived.set", .int, [("n", .int)]⟩)]⟩⟩

theorem layouts_tidy_after_retyping :
    (runAll retypingHistory)[1]? = some retypedLayout ∧ retypedLayout.Tidy ∧
      retypedLayout.interval? "count" = some (16, 20) ∧
      (runAll (retypingHistory ++ [.add 0 (.field "flag" .int), .inherit "Last" 1]))[1]? = some retypedLayout ∧
      ∃ l', (runAll (retypingHistory ++ [.add 1 (.field "count" .boolean)]))[1]? = some l' ∧
        l'.Has (.field "count" .boolean) retypedLayout := by
  have hlayout : (runAll retypingHistory)[1]? = some retypedLayout := by decide +kernel
  obtain ⟨htidy, hkept⟩ := layouts_tidy_after_any_history retypingHistory
  obtain ⟨_, hframe, _, hadd⟩ := hkept 1 retypedLayout hlayout
  exact ⟨hlayout, htidy _ (List.mem_of_getElem? hlayout), by decide +kernel, hframe _ (by decide), hadd _⟩

end LayoutOp

end Demitasse
