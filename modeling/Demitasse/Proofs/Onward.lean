import Demitasse.Parse.Program
import Demitasse.Proofs.Reading

/-! Parsers that read onward. Two parsers agree at a cursor if they have the same outcome there and leave the cursor
no earlier, behind at least a given number of lexemes if they succeed. Agreement goes through sequences of parsers,
and through recursion as long as every call inside a parser has fewer lexemes left than the parser itself. The bound
of such a recursion plays no part in its outcome, once it is as large as the number of lexemes that are left. -/

namespace Demitasse

/-- At least `least` lexemes of `c` are read in `c'`, and identities may be given out. -/
structure Cursor.Onward (least : Nat) (c c' : Cursor) : Prop where
  reads : ∃ read, c.rest = read ++ c'.rest ∧ least ≤ read.length ∧ c'.last = read.foldl (fun _ l => l.span) c.last
  nextId : c.nextId ≤ c'.nextId

namespace Cursor.Onward

variable {k m : Nat} {c c₁ c₂ : Cursor}

theorem refl (c : Cursor) : c.Onward 0 c :=
  ⟨⟨[], rfl, Nat.le_refl 0, rfl⟩, Nat.le_refl _⟩

theorem trans (h : c.Onward k c₁) (h' : c₁.Onward m c₂) : c.Onward (k + m) c₂ := by
  obtain ⟨⟨read, hrest, hk, hlast⟩, hid⟩ := h
  obtain ⟨⟨read', hrest', hm, hlast'⟩, hid'⟩ := h'
  refine ⟨⟨read ++ read', ?_, ?_, ?_⟩, Nat.le_trans hid hid'⟩
  · rw [hrest, hrest', List.append_assoc]
  · rw [List.length_append]
    omega
  · rw [hlast', hlast, List.foldl_append]

theorem mono (h : c.Onward m c₁) (hle : k ≤ m) : c.Onward k c₁ := by
  obtain ⟨⟨read, hrest, hm, hlast⟩, hid⟩ := h
  exact ⟨⟨read, hrest, Nat.le_trans hle hm, hlast⟩, hid⟩

theorem length_le (h : c.Onward k c₁) : c₁.rest.length + k ≤ c.rest.length := by
  obtain ⟨⟨read, hrest, hk, -⟩, -⟩ := h
  rw [hrest, List.length_append]
  omega

theorem advance (h : c.rest ≠ []) : c.Onward 1 c.advance := by
  obtain ⟨rest, last, nextId⟩ := c
  cases rest with
  | nil => exact absurd rfl h
  | cons l rest => exact ⟨⟨[l], rfl, Nat.le_refl 1, rfl⟩, Nat.le_refl _⟩

end Cursor.Onward

theorem Cursor.rest_ne_nil {c : Cursor} {t : Token} (h : c.peek? = some t) : c.rest ≠ [] := by
  intro hrest
  simp [peek?, token?, hrest] at h

namespace Parser

variable {α β ι : Type} {k m least : Nat} {c : Cursor} {p q : Parser α} {f g : α → Parser β}

/-- Where the outcome of a parser that starts at `c` leaves the cursor: behind `least` lexemes if it is a success. -/
def Leaves (least : Nat) (c : Cursor) : EStateM.Result (Located SyntaxFault) Cursor α → Prop
  | .ok _ c' => c.Onward least c'
  | .error _ c' => c.Onward 0 c'

/-- Two parsers have the same outcome at `c` and read onward from there. -/
def Agree (least : Nat) (c : Cursor) (p q : Parser α) : Prop :=
  p.run c = q.run c ∧ Leaves least c (p.run c)

namespace Agree

theorem mono (h : Agree m c p q) (hle : k ≤ m) : Agree k c p q := by
  refine ⟨h.1, ?_⟩
  have hleaves := h.2
  cases hrun : p.run c with
  | ok a c' =>
      rw [hrun] at hleaves
      exact hleaves.mono hle
  | error e c' =>
      rw [hrun] at hleaves
      exact hleaves

theorem congr {p' q' : Parser α} (hp : p'.run c = p.run c) (hq : q'.run c = q.run c) (h : Agree k c p q) :
    Agree k c p' q' := by
  rw [Agree, hp, hq]
  exact h

theorem bind_add (hp : Agree k c p q)
    (hf : ∀ a c', p.run c = .ok a c' → c.Onward k c' → Agree m c' (f a) (g a)) :
    Agree (k + m) c (p >>= f) (q >>= g) := by
  obtain ⟨heq, hleaves⟩ := hp
  rw [Agree, EStateM.run_bind, EStateM.run_bind, ← heq]
  cases hrun : p.run c with
  | error e c' =>
      rw [hrun] at hleaves
      exact ⟨rfl, hleaves⟩
  | ok a c₁ =>
      rw [hrun] at hleaves
      obtain ⟨heq', hleaves'⟩ := hf a c₁ hrun hleaves
      refine ⟨heq', ?_⟩
      change Leaves (k + m) c ((f a).run c₁)
      cases hrun' : (f a).run c₁ with
      | ok b c₂ =>
          rw [hrun'] at hleaves'
          exact hleaves.trans hleaves'
      | error e c₂ =>
          rw [hrun'] at hleaves'
          exact (hleaves.trans hleaves').mono (Nat.zero_le _)

/-- A first parser that reads a lexeme. -/
theorem read (hp : Agree 1 c p q)
    (hf : ∀ a c', c'.rest.length < c.rest.length → Agree (least - 1) c' (f a) (g a)) :
    Agree least c (p >>= f) (q >>= g) :=
  (hp.bind_add fun a c' _ hc' => hf a c' hc'.length_le).mono (by omega)

/-- A first parser that may read nothing. -/
theorem bind (hp : Agree 0 c p q) (hf : ∀ a c', c'.rest.length ≤ c.rest.length → Agree least c' (f a) (g a)) :
    Agree least c (p >>= f) (q >>= g) :=
  (hp.bind_add fun a c' _ hc' => hf a c' hc'.length_le).mono (by omega)

theorem pure (a : α) : Agree 0 c (Pure.pure a) (Pure.pure a) :=
  ⟨rfl, .refl c⟩

theorem get {f g : Cursor → Parser β} (h : Agree k c (f c) (g c)) :
    Agree k c (MonadState.get >>= f) (MonadState.get >>= g) :=
  h

theorem here {f g : Span → Parser β} (h : Agree k c (f c.here) (g c.here)) :
    Agree k c (Parser.here >>= f) (Parser.here >>= g) :=
  h

theorem peek? {f g : Option Token → Parser β} (h : Agree k c (f c.peek?) (g c.peek?)) :
    Agree k c (Parser.peek? >>= f) (Parser.peek? >>= g) :=
  h

theorem advance (h : c.rest ≠ []) : Agree 1 c Parser.advance Parser.advance :=
  ⟨rfl, .advance h⟩

theorem failAt (span : Span) (cause : SyntaxFault) :
    Agree k c (Parser.failAt span cause : Parser α) (Parser.failAt span cause) :=
  ⟨rfl, .refl c⟩

theorem fail (cause : SyntaxFault) : Agree k c (Parser.fail cause : Parser α) (Parser.fail cause) :=
  here (failAt _ cause)

theorem mark (start : Span) : Agree 0 c (Parser.mark start) (Parser.mark start) :=
  ⟨rfl, ⟨⟨[], rfl, Nat.le_refl 0, rfl⟩, Nat.le_succ _⟩⟩

theorem ite {b : Prop} [Decidable b] {p' q' : Parser α} (h : b → Agree k c p q) (h' : ¬ b → Agree k c p' q') :
    Agree k c (if b then p else p') (if b then q else q') := by
  by_cases hb : b
  · rw [if_pos hb, if_pos hb]
    exact h hb
  · rw [if_neg hb, if_neg hb]
    exact h' hb

/-- A token that may be there. -/
theorem optional (t : Token) : Agree 0 c (Parser.accept t) (Parser.accept t) := by
  refine get (ite (fun hsees => ?_) fun _ => pure false)
  exact read (advance (Cursor.rest_ne_nil (Cursor.sees_iff.mp hsees))) fun _ _ _ => pure true

/-- What follows a token that may be there. -/
theorem accept {f g : Bool → Parser β} {t : Token}
    (hyes : c.advance.rest.length < c.rest.length → Agree (least - 1) c.advance (f true) (g true))
    (hno : c.peek? ≠ some t → Agree least c (f false) (g false)) :
    Agree least c (Parser.accept t >>= f) (Parser.accept t >>= g) := by
  by_cases hpeek : c.peek? = some t
  · have hrun := accept_of_sees hpeek
    have haccept : Agree 1 c (Parser.accept t) (Parser.accept t) := by
      refine ⟨rfl, ?_⟩
      rw [hrun]
      exact .advance (Cursor.rest_ne_nil hpeek)
    refine (haccept.bind_add (m := least - 1) fun a c' hrun' hc' => ?_).mono (by omega)
    cases hrun.symm.trans hrun'
    exact hyes hc'.length_le
  · have hrun := accept_of_not_sees hpeek
    refine ((optional t).bind_add (m := least) fun a c' hrun' _ => ?_).mono (by omega)
    cases hrun.symm.trans hrun'
    exact hno hpeek

theorem require (t : Token) (cause : SyntaxFault) : Agree 1 c (Parser.require t cause) (Parser.require t cause) :=
  get (ite (fun hsees => advance (Cursor.rest_ne_nil (Cursor.sees_iff.mp hsees))) fun _ => fail cause)

theorem identifier : Agree 1 c Parser.identifier Parser.identifier := by
  refine peek? ?_
  split
  · rename_i text hpeek
    exact ite (fun _ => read (advance (Cursor.rest_ne_nil hpeek)) fun _ _ _ => pure _) fun _ => fail _
  · exact fail _

end Agree

/-- Two parsers agree, and read something when they succeed, wherever at most `size` lexemes are left. -/
def Settled (size : Nat) (p q : Parser α) : Prop :=
  ∀ ⦃c⦄, c.rest.length ≤ size → Agree 1 c p q

theorem Settled.left {size : Nat} (h : Settled size p q) : Settled size p p :=
  fun _ hc => ⟨rfl, (h hc).2⟩

theorem Settled.right {size : Nat} (h : Settled size p q) : Settled size q q := by
  intro c hc
  obtain ⟨heq, hleaves⟩ := h hc
  exact ⟨rfl, heq ▸ hleaves⟩

/-- Two parsers agree, and read something when they succeed, wherever fewer lexemes are left than at `c`. -/
def Inner (c : Cursor) (p q : Parser α) : Prop :=
  ∀ ⦃c'⦄, c'.rest.length < c.rest.length → Agree 1 c' p q

theorem Inner.settled (h : Inner c p q) {size : Nat} (hsize : size < c.rest.length) : Settled size p q :=
  fun _ hc' => h (Nat.lt_of_le_of_lt hc' hsize)

/-- Parsers with a bound that call themselves through `body`, with a smaller bound. With the bound used up they
are right at the end of the text. -/
structure Unrolls (p : Nat → ι → Parser α) (body : Nat → (ι → Parser α) → ι → Parser α) : Prop where
  zero : ∀ ⦃c⦄ i bound r, c.rest = [] → (p 0 i).run c = (body bound r i).run c
  succ : ∀ bound i, p (bound + 1) i = body bound (p bound) i

/-- What `body` and `body'` do where at most `size` lexemes are left depends on their inner calls only where still
fewer are left, and not on bounds that are large enough. -/
def Guarded (size least : Nat) (body body' : Nat → (ι → Parser α) → ι → Parser α) : Prop :=
  ∀ ⦃c bound bound' r r'⦄, c.rest.length ≤ size → c.rest.length ≤ bound + 1 → c.rest.length ≤ bound' + 1 →
    (∀ i c', c'.rest.length < c.rest.length → Agree least c' (r i) (r' i)) →
    ∀ i, Agree least c (body bound r i) (body' bound' r' i)

/-- Recursion that comes to an end. The parsers satisfy the equation of the recursion in which the bound stays as
it is, and an inner call has fewer lexemes left than the call that it is made for. -/
structure Halts (size least : Nat) (p : Nat → ι → Parser α) (body : Nat → (ι → Parser α) → ι → Parser α) : Prop where
  unfolds : ∀ ⦃c bound⦄, c.rest.length ≤ size → c.rest.length ≤ bound →
    ∀ i, (p bound i).run c = (body bound (p bound) i).run c
  guarded : Guarded size least body body

namespace Unrolls

variable {size bound bound' : Nat} {p q : Nat → ι → Parser α} {body body' : Nat → (ι → Parser α) → ι → Parser α}

theorem run_eq (h : Unrolls p body) (hc : c.rest.length ≤ bound) (i : ι) :
    (p bound i).run c = (body (bound - 1) (p (bound - 1)) i).run c := by
  cases bound with
  | zero => exact h.zero i _ _ (List.length_eq_zero_iff.mp (Nat.le_zero.mp hc))
  | succ bound => rw [h.succ, Nat.add_sub_cancel]

theorem agree (hp : Unrolls p body) (hq : Unrolls q body') (hbody : Guarded size least body body') :
    ∀ {c : Cursor} {bound bound' : Nat}, c.rest.length ≤ size → c.rest.length ≤ bound → c.rest.length ≤ bound' →
      ∀ i, Agree least c (p bound i) (q bound' i) := by
  -- The induction is on the number of lexemes left; the bounds only have to keep up with it.
  intro c
  induction hn : c.rest.length using Nat.strongRecOn generalizing c with
  | ind n ih =>
      subst hn
      intro bound bound' hsize hbound hbound' i
      refine Agree.congr (hp.run_eq hbound i) (hq.run_eq hbound' i) ?_
      refine hbody hsize (by omega) (by omega) (fun j c' hlt => ?_) i
      exact ih _ hlt rfl (by omega) (by omega) (by omega) j

theorem halts (hp : Unrolls p body) (hbody : Guarded size least body body) : Halts size least p body where
  unfolds := by
    intro c bound hsize hbound i
    rw [hp.run_eq hbound i]
    refine (hbody hsize (by omega) (by omega) (fun j c' hlt => ?_) i).1
    exact hp.agree hp hbody (by omega) (by omega) (by omega) j
  guarded := hbody

end Unrolls

section
variable {size bound bound' : Nat} {item item' : Parser α}

/-- One round of `many`. -/
def manyBody (more : Cursor → Bool) (item : Parser α) (again : Parser (List α)) : Parser (List α) := do
  if more (← get) then
    let a ← item
    let rest ← again
    return a :: rest
  else
    return []

/-- One round of `manyUntil`. -/
def manyUntilBody (stop : Token) (unfinished : SyntaxFault) (item : Parser α) (again : Parser (List α)) :
    Parser (List α) := do
  let c ← get
  if c.sees stop then
    return []
  else if c.atEnd then
    fail unfinished
  else
    let a ← item
    let rest ← again
    return a :: rest

/-- One round of `separated`. -/
def separatedBody (item : Parser α) (again : Parser (List α)) : Parser (List α) := do
  let a ← item
  if ← accept .comma then
    let rest ← again
    return a :: rest
  else
    return [a]

theorem many_unrolls {more : Cursor → Bool} (hmore : ∀ c, c.rest = [] → more c = false) (item : Parser α) :
    Unrolls (fun bound (_ : Unit) => many more item bound) fun _ r _ => manyBody more item (r ()) where
  zero := by
    intro c i bound r hc
    have hstop : ¬ more c = true := by simp [hmore c hc]
    rw [manyBody, run_get_bind, if_neg hstop, many]
  succ _ _ := rfl

theorem many_guarded {more : Cursor → Bool} (hitem : Settled size item item') :
    Guarded size 0 (fun _ (r : Unit → Parser (List α)) _ => manyBody more item (r ()))
      fun _ r _ => manyBody more item' (r ()) := by
  intro c bound bound' r r' hsize _ _ hr i
  refine .get (.ite (fun _ => ?_) fun _ => .pure _)
  refine .read (hitem hsize) fun a c' hc' => .bind (hr () c' ?_) fun rest _ _ => .pure _
  omega

theorem manyUntil_unrolls (stop : Token) (unfinished : SyntaxFault) (item : Parser α) :
    Unrolls (fun bound (_ : Unit) => manyUntil stop unfinished item bound)
      fun _ r _ => manyUntilBody stop unfinished item (r ()) where
  zero := by
    intro c i bound r hc
    have hstop : ¬ c.sees stop = true := by simp [Cursor.sees, Cursor.peek?, Cursor.token?, hc]
    have hend : c.atEnd = true := by simp [Cursor.atEnd, hc]
    rw [manyUntilBody, run_get_bind, if_neg hstop, if_pos hend, manyUntil]
  succ _ _ := rfl

theorem manyUntil_guarded {stop : Token} {unfinished : SyntaxFault} (hitem : Settled size item item') :
    Guarded size 0 (fun _ (r : Unit → Parser (List α)) _ => manyUntilBody stop unfinished item (r ()))
      fun _ r _ => manyUntilBody stop unfinished item' (r ()) := by
  intro c bound bound' r r' hsize _ _ hr i
  refine .get (.ite (fun _ => .pure _) fun _ => .ite (fun _ => .fail _) fun _ => ?_)
  refine .read (hitem hsize) fun a c' hc' => .bind (hr () c' ?_) fun rest _ _ => .pure _
  omega

theorem separated_unrolls (hitem : Settled size item item) :
    Unrolls (fun bound (_ : Unit) => separated item bound) fun _ r _ => separatedBody item (r ()) where
  zero := by
    -- An item that succeeds has read something, which it cannot at the end of the text.
    intro c i bound r hc
    have hleaves := (hitem (c := c) (by simp [hc])).2
    rw [separated, separatedBody, EStateM.run_bind, EStateM.run_bind]
    cases hrun : item.run c with
    | error e c' => rfl
    | ok a c' =>
        rw [hrun] at hleaves
        have := hleaves.length_le
        simp [hc] at this
  succ _ _ := rfl

theorem separated_guarded (hitem : Settled size item item') :
    Guarded size 1 (fun _ (r : Unit → Parser (List α)) _ => separatedBody item (r ()))
      fun _ r _ => separatedBody item' (r ()) := by
  intro c bound bound' r r' hsize _ _ hr i
  refine .read (hitem hsize) fun a c' hc' => .accept (fun hadvance => ?_) fun _ => .pure _
  refine .bind ((hr () _ ?_).mono (Nat.zero_le 1)) fun rest _ _ => .pure _
  omega

section
variable (hitem : Settled size item item') (hsize : c.rest.length ≤ size) (hbound : c.rest.length ≤ bound)
  (hbound' : c.rest.length ≤ bound')
include hitem hsize hbound hbound'

theorem many_agree {more : Cursor → Bool} (hmore : ∀ c, c.rest = [] → more c = false) :
    Agree 0 c (many more item bound) (many more item' bound') :=
  (many_unrolls hmore item).agree (many_unrolls hmore item') (many_guarded hitem) hsize hbound hbound' ()

theorem manyUntil_agree (stop : Token) (unfinished : SyntaxFault) :
    Agree 0 c (manyUntil stop unfinished item bound) (manyUntil stop unfinished item' bound') :=
  (manyUntil_unrolls stop unfinished item).agree (manyUntil_unrolls stop unfinished item') (manyUntil_guarded hitem)
    hsize hbound hbound' ()

theorem separated_agree : Agree 1 c (separated item bound) (separated item' bound') :=
  (separated_unrolls hitem.left).agree (separated_unrolls hitem.right) (separated_guarded hitem) hsize hbound hbound' ()

theorem parenthesised_agree : Agree 1 c (parenthesised item bound) (parenthesised item' bound') := by
  refine .read (.require _ _) fun _ c₁ hc₁ => .get ?_
  have hitems : ∀ (items : List α) (c' : Cursor),
      Agree 0 c' (do expect .rparen; return items) (do expect .rparen; return items) :=
    fun items c' => .read (.require _ _) fun _ _ _ => .pure _
  refine .ite (fun _ => .bind (.pure []) fun items c' _ => hitems items c') fun _ => ?_
  exact .read (separated_agree hitem (by omega) (by omega) (by omega)) fun items c' _ => hitems items c'

end

end

end Parser

end Demitasse
