import Demitasse.Class.Layout
import Demitasse.Proofs.Lineage
import Demitasse.Proofs.Tables

/-! Layouts of lineages. A class gets its layout from the layouts of its ancestors, so it is a function
of its lineage: fields and methods are put into the tables from the root down. -/

namespace Demitasse

/-- The names and types of the fields that a class declares itself. -/
def ClassDecl.fieldEntries (c : ClassDecl) : List (String × Ty) :=
  c.fields.map fun f => (f.name, f.ty)

/-- The names and signatures of the methods that a class declares itself. -/
def ClassDecl.methodEntries (c : ClassDecl) : List (String × MethodSig) :=
  c.methods.map fun m => (m.name, m.signature c.name)

namespace Table

variable {α : Type} (declared : ClassDecl → List (String × α))

/-- What the classes of a lineage declare, from the root down. -/
def along : List ClassDecl → Table α
  | [] => .empty
  | c :: ancestors => (along ancestors).insertAll (declared c)

/-- What an end of a lineage declares comes first. -/
theorem keys_along_prefix {K L : List ClassDecl} (h : K <:+ L) :
    (along declared K).keys <+: (along declared L).keys := by
  obtain ⟨added, rfl⟩ := h
  induction added with
  | nil => exact List.prefix_refl _
  | cons c added ih => exact ih.trans (keys_prefix_insertAll _ _)

/-- Under a name stands what the nearest class declares last. -/
theorem find?_along (L : List ClassDecl) (name : String) :
    (along declared L).find? name = L.findSome? fun c => (declared c).reverse.lookup name := by
  induction L with
  | nil => rfl
  | cons c ancestors ih =>
      rw [along, find?_insertAll, ih, List.findSome?_cons]
      cases (declared c).reverse.lookup name <;> rfl

/-- What is in the table of a lineage was declared by one of its classes. -/
theorem mem_entries_along {declared : ClassDecl → List (String × α)} {L : List ClassDecl} {e : String × α}
    (h : e ∈ (along declared L).entries) : ∃ c ∈ L, e ∈ declared c := by
  induction L with
  | nil => cases h
  | cons c ancestors ih =>
      rcases mem_entries_insertAll h with h | h
      · obtain ⟨d, hd, h⟩ := ih h
        exact ⟨d, List.mem_cons_of_mem _ hd, h⟩
      · exact ⟨c, List.mem_cons_self, h⟩

/-- Without two declarations of one name, the table lists what is declared from the root down. -/
theorem entries_along {L : List ClassDecl}
    (h : ((L.reverse.flatMap declared).map (·.1)).Nodup) :
    (along declared L).entries = L.reverse.flatMap declared := by
  induction L with
  | nil => rfl
  | cons c ancestors ih =>
      rw [List.reverse_cons, List.flatMap_append, List.map_append, List.nodup_append] at h
      obtain ⟨hancestors, hown, hdisjoint⟩ := h
      rw [List.flatMap_cons, List.flatMap_nil, List.append_nil] at hown hdisjoint
      have hnew : ∀ k ∈ (declared c).map (·.1), k ∉ (along declared ancestors).keys := by
        intro k hk hmem
        rw [keys, ih hancestors] at hmem
        exact hdisjoint k hmem k hk rfl
      rw [along, entries_insertAll hown hnew, ih hancestors, List.reverse_cons, List.flatMap_append,
        List.flatMap_cons, List.flatMap_nil, List.append_nil]

end Table

namespace Layout

/-- The layout of a class by its lineage. -/
def ofLineage : List ClassDecl → Option Layout
  | [] => none
  | c :: ancestors => some (.ofClass c (ofLineage ancestors))

theorem foldl_addField (fs : List VarDecl) (l : Layout) :
    fs.foldl (fun l f => l.addField f.name f.ty) l =
      { l with fields := l.fields.insertAll (fs.map fun f => (f.name, f.ty)) } := by
  induction fs generalizing l with
  | nil => rfl
  | cons f fs ih => rw [List.foldl_cons, ih]; rfl

theorem foldl_addMethod (className : String) (ms : List MethodDecl) (l : Layout) :
    ms.foldl (fun l m => l.addMethod m.name (m.signature className)) l =
      { l with methods := l.methods.insertAll (ms.map fun m => (m.name, m.signature className)) } := by
  induction ms generalizing l with
  | nil => rfl
  | cons m ms ih => rw [List.foldl_cons, ih]; rfl

theorem ofClass_names (c : ClassDecl) (parent : Option Layout) :
    (ofClass c parent).className = c.name ∧ (ofClass c parent).superName = parent.map (·.className) := by
  simp only [ofClass, foldl_addMethod, foldl_addField]
  cases parent <;> exact ⟨rfl, rfl⟩

theorem ofClass_fields (c : ClassDecl) (parent : Option Layout) :
    (ofClass c parent).fields = (parent.elim .empty (·.fields)).insertAll c.fieldEntries := by
  simp only [ofClass, foldl_addMethod, foldl_addField]
  cases parent <;> rfl

theorem ofClass_methods (c : ClassDecl) (parent : Option Layout) :
    (ofClass c parent).methods = (parent.elim .empty (·.methods)).insertAll c.methodEntries := by
  simp only [ofClass, foldl_addMethod, foldl_addField]
  cases parent <;> rfl

theorem ofLineage_isSome (L : List ClassDecl) : (ofLineage L).isSome ↔ L ≠ [] := by
  cases L <;> simp [ofLineage]

theorem ofLineage_fields (L : List ClassDecl) :
    (ofLineage L).elim .empty (·.fields) = Table.along ClassDecl.fieldEntries L := by
  induction L with
  | nil => rfl
  | cons c ancestors ih =>
      rw [Table.along, ← ih]
      exact ofClass_fields c _

theorem ofLineage_methods (L : List ClassDecl) :
    (ofLineage L).elim .empty (·.methods) = Table.along ClassDecl.methodEntries L := by
  induction L with
  | nil => rfl
  | cons c ancestors ih =>
      rw [Table.along, ← ih]
      exact ofClass_methods c _

theorem fields_of_ofLineage {L : List ClassDecl} {l : Layout} (h : ofLineage L = some l) :
    l.fields = Table.along ClassDecl.fieldEntries L := by
  rw [← ofLineage_fields, h]
  rfl

theorem methods_of_ofLineage {L : List ClassDecl} {l : Layout} (h : ofLineage L = some l) :
    l.methods = Table.along ClassDecl.methodEntries L := by
  rw [← ofLineage_methods, h]
  rfl

end Layout

end Demitasse
