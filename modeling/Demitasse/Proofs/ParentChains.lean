import Demitasse.Proofs.Scopes

/-! Lookups that follow parents. Every scope but the root has a parent with a smaller number, and the scopes around it
are its parent and those around that. So a walk from parent to parent comes to an end, and a lookup along the scopes
around one finds what the nearest of its ancestors declares. -/

namespace Demitasse.ScopeTable

/-- The scopes around a scope. -/
def outer? (t : ScopeTable) (s : ScopeId) : Option (List ScopeId) :=
  t.scopes[s]?.map (·.outer)

/-- The scope directly around a scope. -/
def parent? (t : ScopeTable) (s : ScopeId) : Option ScopeId :=
  t.scopes[s]?.bind Scope.parent?

/-- The scope that is reached from a scope by going to the parent a number of times. -/
def ancestor? (t : ScopeTable) : Nat → ScopeId → Option ScopeId
  | 0, s => some s
  | k + 1, s => (t.parent? s).bind (t.ancestor? k)

/-- Parents have smaller numbers than their children, and only the root has none. -/
structure Acyclic (t : ScopeTable) : Prop where
  top : t.parent? root = none
  inner : ∀ s < t.scopes.size, s ≠ root → ∃ q < s, t.parent? s = some q

/-- A walk from parent to parent ends with what the first scope declares that declares anything, or at a scope
without parent. -/
inductive Finds {β : Type} (t : ScopeTable) (own : ScopeId → Option β) : ScopeId → Option β → Prop
  | here {s : ScopeId} {b : β} (hown : own s = some b) : Finds t own s (some b)
  | outside {s q : ScopeId} {r : Option β} (hown : own s = none) (hparent : t.parent? s = some q)
      (hq : Finds t own q r) : Finds t own s r
  | nowhere {s : ScopeId} (hown : own s = none) (hparent : t.parent? s = none) : Finds t own s none

/-- Of the ancestors of a scope, itself included, the nearest one that declares anything declares `b`. -/
def Nearest {β : Type} (t : ScopeTable) (own : ScopeId → Option β) (s : ScopeId) (b : β) : Prop :=
  ∃ k a, t.ancestor? k s = some a ∧ own a = some b ∧ ∀ j < k, ∀ a', t.ancestor? j s = some a' → own a' = none

/-- What is visible in scopes is found by walking outwards: the walk ends, and it ends at the nearest declaration. -/
structure LooksUp {β : Type} (t : ScopeTable) (own visible : ScopeId → Option β) : Prop where
  finds : ∀ s < t.scopes.size, ∀ r, t.Finds own s r ↔ r = visible s
  nearest : ∀ s < t.scopes.size, ∀ b, visible s = some b ↔ t.Nearest own s b
  undeclared : ∀ s < t.scopes.size, visible s = none ↔ ∀ k a, t.ancestor? k s = some a → own a = none

/-- Parents lead to the root, and along them everything is found that is visible. -/
structure Searchable (t : ScopeTable) : Prop where
  acyclic : t.Acyclic
  vars : ∀ name, t.LooksUp (t.ownVariable? · name) (t.visibleVariable? · name)
  methods : ∀ name, t.LooksUp (t.ownMethod? · name) (t.visibleMethod? · name)
  classes : ∀ name, t.LooksUp (t.ownClass? · name) (t.visibleClass? · name)

/-- The scopes around every scope are its parent, which is older, and those around that one. -/
structure Rooted (t : ScopeTable) : Prop where
  top : t.outer? root = some []
  inner : ∀ s outer, t.outer? s = some outer → s ≠ root → ∃ q < s, outer = t.chain q

section
variable {t t' : ScopeTable} {s q : ScopeId}

theorem chain_eq (t : ScopeTable) (s : ScopeId) : t.chain s = s :: (t.outer? s).getD [] :=
  rfl

theorem parent?_eq (t : ScopeTable) (s : ScopeId) : t.parent? s = (t.outer? s).bind List.head? := by
  rw [parent?, outer?]
  cases t.scopes[s]? <;> rfl

theorem exists_outer? (hs : s < t.scopes.size) : ∃ outer, t.outer? s = some outer :=
  ⟨_, by rw [outer?, Array.getElem?_eq_getElem hs]; rfl⟩

theorem lt_size_of_outer? {outer : List ScopeId} (h : t.outer? s = some outer) : s < t.scopes.size := by
  obtain ⟨_, hscope, -⟩ := Option.map_eq_some_iff.mp h
  exact (Array.getElem?_eq_some_iff.mp hscope).1

/-- Only the scopes around scopes matter. -/
theorem Rooted.congr (h : t.Rooted) (houter : ∀ s, t'.outer? s = t.outer? s) : t'.Rooted := by
  refine ⟨(houter root).trans h.top, fun s outer hs hne => ?_⟩
  rw [houter] at hs
  obtain ⟨q, hq, rfl⟩ := h.inner s outer hs hne
  exact ⟨q, hq, by rw [chain_eq, chain_eq, houter]⟩

theorem Rooted.chain_root (h : t.Rooted) : t.chain root = [root] := by
  rw [chain_eq, h.top]
  rfl

theorem Rooted.parent?_root (h : t.Rooted) : t.parent? root = none := by
  rw [parent?_eq, h.top]
  rfl

/-- A scope other than the root, its parent and the scopes around both. -/
theorem Rooted.exists_parent? (h : t.Rooted) (hs : s < t.scopes.size) (hne : s ≠ root) :
    ∃ q < s, t.parent? s = some q ∧ t.chain s = s :: t.chain q := by
  obtain ⟨outer, houter⟩ := exists_outer? hs
  obtain ⟨q, hq, rfl⟩ := h.inner s outer houter hne
  refine ⟨q, hq, ?_, ?_⟩
  · rw [parent?_eq, houter]
    rfl
  · rw [chain_eq, houter]
    rfl

theorem Rooted.acyclic (h : t.Rooted) : t.Acyclic where
  top := h.parent?_root
  inner s hs hne := by
    obtain ⟨q, hq, hparent, -⟩ := h.exists_parent? hs hne
    exact ⟨q, hq, hparent⟩

/-- The scopes around a scope are its ancestors, in order. -/
theorem Rooted.getElem?_chain (h : t.Rooted) (k : Nat) (hs : s < t.scopes.size) :
    (t.chain s)[k]? = t.ancestor? k s := by
  induction k generalizing s with
  | zero => rfl
  | succ k ih =>
      by_cases hroot : s = root
      · rw [hroot, h.chain_root, ancestor?, h.parent?_root]
        rfl
      · obtain ⟨q, hq, hparent, hchain⟩ := h.exists_parent? hs hroot
        rw [hchain, ancestor?, hparent, List.getElem?_cons_succ, ih (Nat.lt_trans hq hs)]
        rfl

variable {β : Type} {own : ScopeId → Option β}

theorem Finds.unique {r r' : Option β} (h : t.Finds own s r) (h' : t.Finds own s r') : r = r' := by
  induction h with
  | here hown =>
      cases h' with
      | here hown' => exact hown.symm.trans hown'
      | outside hown' | nowhere hown' => cases hown.symm.trans hown'
  | outside hown hparent _ ih =>
      cases h' with
      | here hown' => cases hown.symm.trans hown'
      | outside _ hparent' hq' =>
          cases hparent.symm.trans hparent'
          exact ih hq'
      | nowhere _ hparent' => cases hparent.symm.trans hparent'
  | nowhere hown hparent =>
      cases h' with
      | here hown' => cases hown.symm.trans hown'
      | outside _ hparent' => cases hparent.symm.trans hparent'
      | nowhere => rfl

/-- From every scope the walk ends with what is found along the scopes around it. -/
theorem Rooted.finds_chain (h : t.Rooted) (hs : s < t.scopes.size) : t.Finds own s ((t.chain s).findSome? own) := by
  -- the parent has a smaller number
  induction s using Nat.strongRecOn with
  | ind s ih =>
      by_cases hroot : s = root
      · rw [hroot, h.chain_root, List.findSome?_cons, List.findSome?_nil]
        cases hown : own root with
        | some b => exact .here hown
        | none => exact .nowhere hown h.parent?_root
      · obtain ⟨q, hq, hparent, hchain⟩ := h.exists_parent? hs hroot
        rw [hchain, List.findSome?_cons]
        cases hown : own s with
        | some b => exact .here hown
        | none => exact .outside hown hparent (ih q hq (Nat.lt_trans hq hs))

theorem findSome?_eq_some_iff_getElem? {α : Type} {l : List α} {f : α → Option β} {b : β} :
    l.findSome? f = some b ↔
      ∃ (k : Nat) (a : α), l[k]? = some a ∧ f a = some b ∧ ∀ j < k, ∀ a', l[j]? = some a' → f a' = none := by
  rw [List.findSome?_eq_some_iff]
  constructor
  · rintro ⟨front, a, back, rfl, ha, hbefore⟩
    refine ⟨front.length, a, by simp, ha, fun j hj a' hj' => hbefore a' ?_⟩
    rw [List.getElem?_append_left hj] at hj'
    exact List.mem_of_getElem? hj'
  · rintro ⟨k, a, hk, ha, hbefore⟩
    obtain ⟨hlt, rfl⟩ := List.getElem?_eq_some_iff.mp hk
    refine ⟨l.take k, l[k], l.drop (k + 1), ?_, ha, fun a' ha' => ?_⟩
    · rw [List.getElem_cons_drop, List.take_append_drop]
    · obtain ⟨j, hj⟩ := List.mem_iff_getElem?.mp ha'
      rw [List.getElem?_take] at hj
      split at hj
      · exact hbefore j ‹_› a' hj
      · cases hj

theorem Rooted.looksUp (h : t.Rooted) (own : ScopeId → Option β) :
    t.LooksUp own fun s => (t.chain s).findSome? own where
  finds s hs r := by
    constructor
    · exact fun hr => hr.unique (h.finds_chain hs)
    · rintro rfl
      exact h.finds_chain hs
  nearest s hs b := by
    rw [findSome?_eq_some_iff_getElem?, Nearest]
    simp only [h.getElem?_chain _ hs]
  undeclared s hs := by
    simp only [List.findSome?_eq_none_iff, List.mem_iff_getElem?, h.getElem?_chain _ hs]
    exact ⟨fun hnone k a ha => hnone a ⟨k, ha⟩, fun hnone a ⟨k, ha⟩ => hnone k a ha⟩

theorem Rooted.searchable (h : t.Rooted) : t.Searchable :=
  ⟨h.acyclic, fun _ => h.looksUp _, fun _ => h.looksUp _, fun _ => h.looksUp _⟩

end

end Demitasse.ScopeTable
