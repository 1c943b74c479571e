import Demitasse.Proofs.Typing

/-! Definite assignment. Checking a statement takes the local variables that have a value before it to those that
have one after it. The set only grows, and the type of an expression does not depend on it. -/

namespace Demitasse

section
variable {Γ : Context} {assigned after : List String}

/-- What the checks have found out about the local variables that have a value after a statement. -/
def Stmt.Effect (Γ : Context) (assigned : List String) : Stmt → List String → Prop
  | .block _ body, after => Stmt.checkAll Γ assigned body = .ok after
  | .ifElse _ _ thenBranch elseBranch, after =>
    ∃ afterThen afterElse, thenBranch.check Γ assigned = .ok afterThen ∧
      elseBranch.check Γ assigned = .ok afterElse ∧ after = afterElse.filter (· ∈ afterThen)
  | .loop .., after | .print .., after => after = assigned
  | .assign node target _, after =>
    ∃ b, Γ.analysis.scopes.resolve? node.id target = some b ∧
      after = if b.storage = .local then assigned.insert target else assigned
  | .assignElement node target _ _, after =>
    Γ.readVariable assigned node target = .ok .intArray ∧ after = assigned

theorem Stmt.effect_of_check {s : Stmt} (h : s.check Γ assigned = .ok after) : s.Effect Γ assigned after := by
  cases s with
  | block node body =>
      rw [check] at h
      exact h
  | ifElse node cond thenBranch elseBranch =>
      rw [check] at h
      obtain ⟨_, _, h⟩ := bind_eq_ok.mp h
      obtain ⟨afterThen, hthen, h⟩ := bind_eq_ok.mp h
      obtain ⟨afterElse, helse, h⟩ := bind_eq_ok.mp h
      exact ⟨afterThen, afterElse, hthen, helse, (pure_eq_ok.mp h).symm⟩
  | loop node cond body =>
      rw [check] at h
      obtain ⟨_, _, h⟩ := bind_eq_ok.mp h
      obtain ⟨_, _, h⟩ := bind_eq_ok.mp h
      exact (pure_eq_ok.mp h).symm
  | print node arg =>
      rw [check] at h
      obtain ⟨_, _, h⟩ := bind_eq_ok.mp h
      exact (pure_eq_ok.mp h).symm
  | assign node target value =>
      rw [check] at h
      obtain ⟨_, _, h⟩ := bind_eq_ok.mp h
      obtain ⟨b, hb, h⟩ := bind_eq_ok.mp h
      obtain ⟨_, _, h⟩ := bind_eq_ok.mp h
      exact ⟨b, Context.resolve_eq_ok.mp hb, (pure_eq_ok.mp h).symm⟩
  | assignElement node target index value =>
      rw [check] at h
      obtain ⟨targetTy, htarget, h⟩ := bind_eq_ok.mp h
      obtain ⟨harray, h⟩ := ite_throw_eq_ok.mp h
      obtain ⟨_, _, h⟩ := bind_eq_ok.mp h
      obtain ⟨_, _, h⟩ := bind_eq_ok.mp h
      exact ⟨htarget.trans (congrArg _ (Decidable.not_not.mp harray)), (pure_eq_ok.mp h).symm⟩

mutual

/-- A statement takes no value away. -/
theorem Stmt.assigned_subset : ∀ (s : Stmt) {assigned after : List String}, s.check Γ assigned = .ok after →
    assigned ⊆ after
  | .block _ body, _, _, h => Stmt.assigned_subsetAll body (Stmt.effect_of_check h)
  | .ifElse _ _ thenBranch elseBranch, _, _, h => by
      obtain ⟨afterThen, afterElse, hthen, helse, rfl⟩ := Stmt.effect_of_check h
      intro name hname
      rw [List.mem_filter]
      exact ⟨elseBranch.assigned_subset helse hname, decide_eq_true (thenBranch.assigned_subset hthen hname)⟩
  | .loop .., _, _, h => by
      obtain rfl := Stmt.effect_of_check h
      exact List.Subset.refl _
  | .print .., _, _, h => by
      obtain rfl := Stmt.effect_of_check h
      exact List.Subset.refl _
  | .assign .., _, _, h => by
      obtain ⟨b, _, rfl⟩ := Stmt.effect_of_check h
      by_cases hlocal : b.storage = .local
      · rw [if_pos hlocal]
        exact fun name hname => List.mem_insert_of_mem hname
      · rw [if_neg hlocal]
        exact List.Subset.refl _
  | .assignElement .., _, _, h => by
      obtain ⟨_, rfl⟩ := Stmt.effect_of_check h
      exact List.Subset.refl _

theorem Stmt.assigned_subsetAll : ∀ (ss : List Stmt) {assigned after : List String},
    Stmt.checkAll Γ assigned ss = .ok after → assigned ⊆ after
  | [], _, _, h => by
      rw [Stmt.checkAll] at h
      obtain rfl := pure_eq_ok.mp h
      exact List.Subset.refl _
  | s :: rest, _, _, h => by
      obtain ⟨_, hs, hrest⟩ := Stmt.checkAll_cons_eq_ok h
      exact List.Subset.trans (s.assigned_subset hs) (Stmt.assigned_subsetAll rest hrest)

end

/-- The type of an expression does not depend on the variables that have a value. -/
theorem Expr.typeOf_unique : ∀ (e : Expr) {assigned assigned' : List String} {ty ty' : Ty},
    e.typeOf Γ assigned = .ok ty → e.typeOf Γ assigned' = .ok ty' → ty = ty'
  | .binary .., _, _, _, _, h, h' => (rule_of_typeOf h).2.2.trans (rule_of_typeOf h').2.2.symm
  | .element .., _, _, _, _, h, h' => (rule_of_typeOf h).2.2.trans (rule_of_typeOf h').2.2.symm
  | .length .., _, _, _, _, h, h' => (rule_of_typeOf h).2.trans (rule_of_typeOf h').2.symm
  | .call _ owner .., _, _, _, _, h, h' => by
      obtain ⟨C, signature, howner, hmethod, _, _, rfl⟩ := rule_of_typeOf h
      obtain ⟨C', signature', howner', hmethod', _, _, rfl⟩ := rule_of_typeOf h'
      cases owner.typeOf_unique howner howner'
      cases hmethod.symm.trans hmethod'
      rfl
  | .int .., _, _, _, _, h, h' => (rule_of_typeOf h).trans (rule_of_typeOf h').symm
  | .bool .., _, _, _, _, h, h' => (rule_of_typeOf h).trans (rule_of_typeOf h').symm
  | .var .., _, _, _, _, h, h' => by
      obtain ⟨b, hb, rfl⟩ := rule_of_typeOf h
      obtain ⟨b', hb', rfl⟩ := rule_of_typeOf h'
      cases hb.symm.trans hb'
      rfl
  | .this _, _, _, _, _, h, h' => by
      obtain ⟨C, hC, rfl⟩ := rule_of_typeOf h
      obtain ⟨C', hC', rfl⟩ := rule_of_typeOf h'
      cases hC.symm.trans hC'
      rfl
  | .newArray .., _, _, _, _, h, h' => (rule_of_typeOf h).2.trans (rule_of_typeOf h').2.symm
  | .newObject .., _, _, _, _, h, h' => (rule_of_typeOf h).2.trans (rule_of_typeOf h').2.symm
  | .not .., _, _, _, _, h, h' => (rule_of_typeOf h).2.trans (rule_of_typeOf h').2.symm

end

end Demitasse
