/-! Tables by name that remember the order of first insertion. A second value under a name takes the
place of the first one. -/

namespace Demitasse

/-- Values by name, in the order in which the names came. -/
structure Table (α : Type) where
  entries : List (String × α)
deriving DecidableEq

namespace Table

variable {α : Type}

/-- The table without entries. -/
def empty : Table α :=
  ⟨[]⟩

/-- Puts a value under a name, in place if the name is there and at the end otherwise. -/
def insertEntry (key : String) (a : α) : List (String × α) → List (String × α)
  | [] => [(key, a)]
  | (k, b) :: rest => if k = key then (k, a) :: rest else (k, b) :: insertEntry key a rest

/-- Puts a value under a name. -/
def insert (t : Table α) (key : String) (a : α) : Table α :=
  ⟨insertEntry key a t.entries⟩

/-- The value under a name. -/
def find? (t : Table α) (key : String) : Option α :=
  t.entries.lookup key

/-- The place of a name. -/
def index? (t : Table α) (key : String) : Option Nat :=
  t.entries.findIdx? fun e => e.1 = key

/-- The number of names. -/
def size (t : Table α) : Nat :=
  t.entries.length

/-- The names in order. -/
def keys (t : Table α) : List String :=
  t.entries.map (·.1)

/-- The values in order. -/
def values (t : Table α) : List α :=
  t.entries.map (·.2)

/-- Whether two tables have the same values under the same names, in whatever order. -/
def agrees [DecidableEq α] (t u : Table α) : Bool :=
  t.size = u.size && t.entries.all fun e => u.find? e.1 = some e.2

theorem lookup_cons (k j : String) (b : α) (rest : List (String × α)) :
    ((j, b) :: rest).lookup k = if k = j then some b else rest.lookup k := by
  rw [List.lookup_cons]
  by_cases h : k = j
  · simp [h]
  · have hb : (k == j) = false := by simpa using h
    rw [hb, if_neg h]

/-- An insertion changes what stands under its own name and nothing else. -/
theorem find?_insert (t : Table α) (key k : String) (a : α) :
    (t.insert key a).find? k = if k = key then some a else t.find? k := by
  obtain ⟨entries⟩ := t
  simp only [insert, find?]
  induction entries with
  | nil => simp [insertEntry, lookup_cons]
  | cons e rest ih =>
    obtain ⟨j, b⟩ := e
    by_cases hj : j = key
    · subst hj
      by_cases hk : k = j <;> simp [insertEntry, lookup_cons, hk]
    · by_cases hk : k = j
      · subst hk
        simp [insertEntry, hj]
      · simp [insertEntry, lookup_cons, hj, hk, ih]

/-- Only a new name changes the list of names, and it goes to the end. -/
theorem keys_insert (t : Table α) (key : String) (a : α) :
    (t.insert key a).keys = if key ∈ t.keys then t.keys else t.keys ++ [key] := by
  obtain ⟨entries⟩ := t
  simp only [insert, keys]
  induction entries with
  | nil => simp [insertEntry]
  | cons e rest ih =>
    obtain ⟨j, b⟩ := e
    by_cases hj : j = key
    · simp [insertEntry, hj]
    · have hj' : ¬ key = j := fun h => hj h.symm
      by_cases hm : key ∈ rest.map (·.1) <;> simp_all [insertEntry]

end Table

end Demitasse
