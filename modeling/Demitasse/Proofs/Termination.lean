import Demitasse.Proofs.Evaluation

/-! Runs with as much fuel as they need. A computation that is given for each amount of fuel converges if it comes
to one and the same end from some amount on and runs out of fuel before that; it diverges if it runs out of any
amount. -/

namespace Demitasse

namespace Exec

section
variable {α β : Type} {x : Exec α} {f : α → Exec β} {s s' : Memory} {v : α}

/-- A computation runs out of fuel. -/
def Exhausted (x : Exec α) (s : Memory) : Prop :=
  ∃ s', x.run s = .error .outOfFuel s'

theorem run_bind_of_ok (h : x.run s = .ok v s') : (x >>= f).run s = (f v).run s' := by
  rw [EStateM.run_bind, h]

theorem Exhausted.bind (h : x.Exhausted s) : (x >>= f).Exhausted s := by
  obtain ⟨s', h⟩ := h
  exact ⟨s', by rw [EStateM.run_bind, h]⟩

theorem exhausted_bind_of_ok (h : x.run s = .ok v s' ∨ x.Exhausted s) (hf : (f v).Exhausted s') :
    (x >>= f).Exhausted s := by
  rcases h with h | h
  · obtain ⟨s'', hf⟩ := hf
    exact ⟨s'', (run_bind_of_ok h).trans hf⟩
  · exact h.bind

end

section
variable {α β : Type} {x : Nat → Exec α} {f : Nat → α → Exec β} {s s' s'' : Memory} {v : α} {w : β}

/-- With enough fuel a computation comes to an end, and with less it runs out of fuel. -/
structure Converges (x : Nat → Exec α) (s : Memory) (v : α) (s' : Memory) : Prop where
  reached : ∃ n, ∀ k ≥ n, (x k).run s = .ok v s'
  otherwise : ∀ n, (x n).run s = .ok v s' ∨ (x n).Exhausted s

/-- A computation runs out of any amount of fuel. -/
def Diverges (x : Nat → Exec α) (s : Memory) : Prop :=
  ∀ n, (x n).Exhausted s

theorem converges_const {x : Exec α} (h : x.run s = .ok v s') : Converges (fun _ => x) s v s' :=
  ⟨⟨0, fun _ _ => h⟩, fun _ => .inl h⟩

theorem Converges.bind (hx : Converges x s v s') (hf : Converges (fun n => f n v) s' w s'') :
    Converges (fun n => x n >>= f n) s w s'' := by
  constructor
  · obtain ⟨m, hm⟩ := hx.reached
    obtain ⟨n, hn⟩ := hf.reached
    refine ⟨max m n, fun k hk => ?_⟩
    rw [run_bind_of_ok (hm k (by omega)), hn k (by omega)]
  · intro n
    rcases hx.otherwise n with h | h
    · rcases hf.otherwise n with h' | h'
      · exact .inl ((run_bind_of_ok h).trans h')
      · exact .inr (exhausted_bind_of_ok (.inl h) h')
    · exact .inr h.bind

/-- Without fuel nothing is found, so only what comes with one unit more counts. -/
theorem Converges.succ (hzero : (x 0).Exhausted s) (h : Converges (fun n => x (n + 1)) s v s') :
    Converges x s v s' := by
  constructor
  · obtain ⟨n, hn⟩ := h.reached
    refine ⟨n + 1, fun k hk => ?_⟩
    obtain ⟨k, rfl⟩ : ∃ j, k = j + 1 := ⟨k - 1, by omega⟩
    exact hn k (by omega)
  · intro n
    cases n with
    | zero => exact .inr hzero
    | succ n => exact h.otherwise n

theorem Converges.unique (h : Converges x s v s') {n : Nat} {v' : α} {t : Memory}
    (h' : (x n).run s = .ok v' t) : v' = v ∧ t = s' := by
  rcases h.otherwise n with h | ⟨_, h⟩
  · cases h'.symm.trans h
    exact ⟨rfl, rfl⟩
  · cases h'.symm.trans h

theorem Diverges.bind (h : Diverges x s) : Diverges (fun n => x n >>= f n) s :=
  fun n => (h n).bind

theorem Converges.bind_diverges (hx : Converges x s v s') (hf : Diverges (fun n => f n v) s') :
    Diverges (fun n => x n >>= f n) s :=
  fun n => exhausted_bind_of_ok (hx.otherwise n) (hf n)

theorem Diverges.succ (hzero : (x 0).Exhausted s) (h : Diverges (fun n => x (n + 1)) s) : Diverges x s := by
  intro n
  cases n with
  | zero => exact hzero
  | succ n => exact h n

theorem Diverges.not_ok (h : Diverges x s) {n : Nat} : (x n).run s ≠ .ok v s' := by
  obtain ⟨t, h⟩ := h n
  rw [h]
  exact nofun

end

section
variable {p : Program} {F : Frame} {e : Expr} {st : Stmt} {s s' : Memory} {v : Datum}

open Evaluator

theorem Converges.eval (h : Converges (fun n => (withFuel p n).evalForm p F e) s v s') :
    Converges (fun n => (withFuel p n).eval F e) s v
      { s' with history := ⟨F.className, e, v, s'.heap⟩ :: s'.history } :=
  .succ ⟨s, rfl⟩ (h.bind (converges_const rfl))

theorem Converges.exec (h : Converges (fun n => (withFuel p n).execForm p F st) s () s') :
    Converges (fun n => (withFuel p n).exec F st) s () s' :=
  .succ ⟨s, rfl⟩ h

theorem Diverges.exec (h : Diverges (fun n => (withFuel p n).execForm p F st) s) :
    Diverges (fun n => (withFuel p n).exec F st) s :=
  .succ ⟨s, rfl⟩ h

end

end Exec

end Demitasse
