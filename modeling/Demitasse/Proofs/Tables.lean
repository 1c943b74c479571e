import Mathlib.Data.List.Basic
import Demitasse.Class.Table

/-! Tables that are filled entry by entry. A new name goes to the end and an old one keeps its place, so
the names that a table starts with stay in front, in their order. -/

namespace Demitasse

namespace Table

variable {α : Type}

/-- Puts entries into a table, one after the other. -/
def insertAll (t : Table α) (es : List (String × α)) : Table α :=
  es.foldl (fun t e => t.insert e.1 e.2) t

theorem insertAll_cons (t : Table α) (e : String × α) (es : List (String × α)) :
    t.insertAll (e :: es) = (t.insert e.1 e.2).insertAll es :=
  rfl

theorem mem_keys_insert (t : Table α) (key k : String) (a : α) :
    k ∈ (t.insert key a).keys ↔ k ∈ t.keys ∨ k = key := by
  rw [keys_insert]
  split_ifs with h
  · constructor
    · exact Or.inl
    · rintro (hk | rfl)
      · exact hk
      · exact h
  · simp

theorem keys_prefix_insert (t : Table α) (key : String) (a : α) : t.keys <+: (t.insert key a).keys := by
  rw [keys_insert]
  split_ifs with h
  · exact List.prefix_refl _
  · exact List.prefix_append _ _

/-- The names that were there first stay in front. -/
theorem keys_prefix_insertAll (es : List (String × α)) (t : Table α) : t.keys <+: (t.insertAll es).keys := by
  induction es generalizing t with
  | nil => exact List.prefix_refl _
  | cons e es ih => exact (keys_prefix_insert t e.1 e.2).trans (ih _)

/-- Of several values for one name the last one counts. -/
theorem find?_insertAll (es : List (String × α)) (t : Table α) (k : String) :
    (t.insertAll es).find? k = (es.reverse.lookup k).or (t.find? k) := by
  induction es generalizing t with
  | nil => simp [insertAll]
  | cons e es ih =>
      obtain ⟨key, a⟩ := e
      rw [insertAll_cons, ih, find?_insert, List.reverse_cons, List.lookup_append, Option.or_assoc,
        lookup_cons]
      by_cases hk : k = key
      · simp [hk]
      · simp [hk]

theorem entries_insert_of_not_mem {t : Table α} {key : String} (h : key ∉ t.keys) (a : α) :
    (t.insert key a).entries = t.entries ++ [(key, a)] := by
  obtain ⟨entries⟩ := t
  simp only [insert, keys] at h ⊢
  induction entries with
  | nil => rfl
  | cons e rest ih =>
      obtain ⟨k, b⟩ := e
      rw [List.map_cons, List.mem_cons, not_or] at h
      have hne : ¬ k = key := fun hk => h.1 hk.symm
      rw [insertEntry, if_neg hne, ih h.2, List.cons_append]

/-- New names, each given once, are appended with their values. -/
theorem entries_insertAll {es : List (String × α)} {t : Table α} (hnodup : (es.map (·.1)).Nodup)
    (hnew : ∀ k ∈ es.map (·.1), k ∉ t.keys) : (t.insertAll es).entries = t.entries ++ es := by
  induction es generalizing t with
  | nil => simp [insertAll]
  | cons e es ih =>
      rw [List.map_cons, List.nodup_cons] at hnodup
      have hrest : ∀ k ∈ es.map (·.1), k ∉ (t.insert e.1 e.2).keys := by
        intro k hk hmem
        rcases (mem_keys_insert t e.1 k e.2).mp hmem with hmem | rfl
        · exact hnew k (List.mem_cons_of_mem _ hk) hmem
        · exact hnodup.1 hk
      rw [insertAll_cons, ih hnodup.2 hrest, entries_insert_of_not_mem (hnew e.1 List.mem_cons_self),
        List.append_assoc, List.singleton_append]

/-- What is in a table was there before or was put in. -/
theorem mem_entries_insert {t : Table α} {key : String} {v : α} {e : String × α}
    (h : e ∈ (t.insert key v).entries) :
    e ∈ t.entries ∨ e = (key, v) := by
  obtain ⟨entries⟩ := t
  simp only [insert] at h ⊢
  induction entries with
  | nil => exact .inr (List.mem_singleton.mp h)
  | cons d rest ih =>
      obtain ⟨k, b⟩ := d
      rw [insertEntry] at h
      split at h
      case isTrue hk =>
        subst hk
        rcases List.mem_cons.mp h with rfl | h
        · exact .inr rfl
        · exact .inl (List.mem_cons_of_mem _ h)
      case isFalse hk =>
        rcases List.mem_cons.mp h with rfl | h
        · exact .inl List.mem_cons_self
        · exact (ih h).imp_left (List.mem_cons_of_mem _)

theorem mem_entries_insertAll {t : Table α} {es : List (String × α)} {e : String × α}
    (h : e ∈ (t.insertAll es).entries) :
    e ∈ t.entries ∨ e ∈ es := by
  induction es generalizing t with
  | nil => exact .inl h
  | cons d es ih =>
      rcases ih h with h | h
      · rcases mem_entries_insert h with h | rfl
        · exact .inl h
        · exact .inr List.mem_cons_self
      · exact .inr (List.mem_cons_of_mem _ h)

theorem mem_of_lookup {es : List (String × α)} {k : String} {a : α} (h : es.lookup k = some a) :
    (k, a) ∈ es := by
  induction es with
  | nil => cases h
  | cons e rest ih =>
      obtain ⟨j, b⟩ := e
      rw [lookup_cons] at h
      split_ifs at h with hk
      · cases h
        rw [hk]
        exact List.mem_cons_self
      · exact List.mem_cons_of_mem _ (ih h)

/-- An entry is found if no other one has its name. -/
theorem find?_of_mem {t : Table α} (hnodup : t.keys.Nodup) {k : String} {a : α} (h : (k, a) ∈ t.entries) :
    t.find? k = some a := by
  obtain ⟨entries⟩ := t
  simp only [find?, keys] at hnodup h ⊢
  induction entries with
  | nil => exact absurd h List.not_mem_nil
  | cons e rest ih =>
      obtain ⟨j, b⟩ := e
      obtain ⟨hj, hnodup⟩ := List.nodup_cons.mp hnodup
      rw [lookup_cons]
      rcases List.mem_cons.mp h with heq | hmem
      · cases heq
        rw [if_pos rfl]
      · have hk : k ∈ rest.map (·.1) := List.mem_map_of_mem hmem
        have hne : k ≠ j := fun heq => hj (heq ▸ hk)
        rw [if_neg hne, ih hnodup hmem]

theorem find?_isSome (t : Table α) (k : String) : (t.find? k).isSome ↔ k ∈ t.keys := by
  obtain ⟨entries⟩ := t
  simp only [find?, keys]
  induction entries with
  | nil => simp
  | cons e rest ih =>
      obtain ⟨j, b⟩ := e
      rw [lookup_cons, List.map_cons, List.mem_cons]
      by_cases hk : k = j
      · simp [hk]
      · simp [hk, ih]

theorem index?_eq (t : Table α) (k : String) : t.index? k = t.keys.findIdx? fun j => j = k := by
  rw [index?, keys, List.findIdx?_map]
  rfl

theorem index?_isSome (t : Table α) (k : String) : (t.index? k).isSome ↔ k ∈ t.keys := by
  rw [index?_eq, List.findIdx?_isSome]
  simp

/-- A name keeps its place when names are added at the end. -/
theorem index?_of_prefix {β : Type} {t : Table α} {u : Table β} (h : t.keys <+: u.keys) {k : String} {i : Nat}
    (hi : t.index? k = some i) : u.index? k = some i := by
  obtain ⟨added, hadded⟩ := h
  rw [index?_eq] at hi ⊢
  rw [← hadded, List.findIdx?_append, hi]
  rfl

theorem getElem?_keys {t : Table α} {k : String} {i : Nat} (hi : t.index? k = some i) :
    t.keys[i]? = some k := by
  rw [index?_eq, List.findIdx?_eq_some_iff_getElem] at hi
  obtain ⟨hlt, hk, _⟩ := hi
  rw [List.getElem?_eq_getElem hlt, of_decide_eq_true hk]

theorem index?_lt {t : Table α} {k : String} {i : Nat} (hi : t.index? k = some i) : i < t.values.length := by
  have hlt := (List.getElem?_eq_some_iff.mp (getElem?_keys hi)).1
  rwa [keys, List.length_map, ← List.length_map (f := (·.2))] at hlt

/-- Different names have different places. -/
theorem index?_inj {t : Table α} {k k' : String} {i : Nat} (hi : t.index? k = some i)
    (hi' : t.index? k' = some i) : k = k' := by
  have hsome := (getElem?_keys hi).symm.trans (getElem?_keys hi')
  exact Option.some.inj hsome

/-- At the place of a name stands the value under that name. -/
theorem getElem?_values {t : Table α} {k : String} {i : Nat} (hi : t.index? k = some i) :
    t.values[i]? = t.find? k := by
  obtain ⟨entries⟩ := t
  simp only [index?, values, find?] at hi ⊢
  induction entries generalizing i with
  | nil => simp at hi
  | cons e rest ih =>
      obtain ⟨j, b⟩ := e
      rw [lookup_cons]
      by_cases hj : j = k
      · have hi0 : i = 0 := by simpa [List.findIdx?_cons, hj, eq_comm] using hi
        subst hi0
        simp [hj]
      · have hne : ¬ k = j := fun h => hj h.symm
        rw [List.findIdx?_cons] at hi
        simp only [hj, decide_false, Bool.false_eq_true, if_false, Option.map_eq_some_iff] at hi
        obtain ⟨i', hi', rfl⟩ := hi
        rw [if_neg hne, List.map_cons, List.getElem?_cons_succ, ih hi']

end Table

end Demitasse
