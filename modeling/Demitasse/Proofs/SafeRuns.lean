import Demitasse.Proofs.Assignment
import Demitasse.Proofs.HeapTypes

/-!
Runs without mistakes. A computation is safe if it comes to an end with a given property, runs out of fuel, or
ends in a trap. The memory of a method is sound if its variables, its object and all that the heap holds have values
that suit them; reading a variable that counts as assigned is safe, and so is writing what suits.
-/

namespace Demitasse

/-- The value of an expression that has a type suits this type. -/
def Observation.Sound (a : Analysis) (o : Observation) : Prop :=
  o.expr.Typed ⟨a, o.className⟩ ∧
    ∀ assigned ty, o.expr.typeOf ⟨a, o.className⟩ assigned = .ok ty → o.datum.Suits a.forest o.heap ty

/-- All values that were recorded suit the types of their expressions. -/
def Memory.Traced (a : Analysis) (s : Memory) : Prop :=
  ∀ o ∈ s.history, o.Sound a

/-- A reason to stop that is no mistake. -/
def Stop.Regular : Stop → Prop
  | .outOfFuel | .trap _ => True
  | .mistake _ => False

namespace Exec

variable {α β : Type} {a : Analysis} {x : Exec α} {f : α → Exec β} {s : Memory} {Q R : α → Memory → Prop}
  {S : β → Memory → Prop} {v : Datum}

/-- A computation makes no mistake, and `Q` holds if it comes to its end. -/
def Safe (a : Analysis) (x : Exec α) (s : Memory) (Q : α → Memory → Prop) : Prop :=
  match x.run s with
  | .ok v s' => Q v s'
  | .error stop s' => stop.Regular ∧ s'.Traced a

theorem Safe.bind (hx : x.Safe a s Q) (hf : ∀ v s', Q v s' → (f v).Safe a s' S) : (x >>= f).Safe a s S := by
  unfold Safe at hx ⊢
  rw [EStateM.run_bind]
  cases hr : x.run s with
  | ok v s' =>
      rw [hr] at hx
      exact hf v s' hx
  | error stop s' =>
      rw [hr] at hx
      exact hx

theorem Safe.imp (hx : x.Safe a s Q) (h : ∀ v s', Q v s' → R v s') : x.Safe a s R := by
  unfold Safe at hx ⊢
  cases hr : x.run s with
  | ok v s' =>
      rw [hr] at hx
      exact h v s' hx
  | error stop s' =>
      rw [hr] at hx
      exact hx

theorem safe_pure {v : α} (h : Q v s) : Safe a (pure v) s Q :=
  h

theorem safe_trap {t : Trap} (h : s.Traced a) : Safe a (trap t) s Q :=
  ⟨trivial, h⟩

theorem safe_outOfFuel (h : s.Traced a) : Safe a (throw .outOfFuel) s Q :=
  ⟨trivial, h⟩

theorem safe_asInt {F : Forest} {h : Heap} (hv : v.Suits F h .int) : (asInt v).Safe a s fun _ s' => s = s' := by
  obtain ⟨n, rfl⟩ := hv.int
  exact safe_pure rfl

theorem safe_asBool {F : Forest} {h : Heap} (hv : v.Suits F h .boolean) :
    (asBool v).Safe a s fun _ s' => s = s' := by
  obtain ⟨b, rfl⟩ := hv.boolean
  exact safe_pure rfl

theorem safe_array (htraced : s.Traced a) (hv : v.Suits a.forest s.heap .intArray) :
    (array v).Safe a s fun r s' => s = s' ∧ s.heap[r.1]? = some (.array r.2) := by
  rcases hv.intArray with rfl | ⟨loc, elements, rfl, hloc⟩
  · exact safe_trap htraced
  · simp only [Safe, array, cell, EStateM.run_bind, EStateM.run_get, hloc, EStateM.run_pure]
    exact ⟨trivial, trivial⟩

theorem safe_position (htraced : s.Traced a) (elements : List (BitVec 32)) (index : BitVec 32) :
    (position elements index).Safe a s fun _ s' => s = s' := by
  unfold position
  split
  · exact safe_trap htraced
  · exact safe_pure rfl

end Exec

/-- The field that a name means in the methods of a class. -/
def Analysis.field? (a : Analysis) (className : Option String) (name : String) : Option VarBinding :=
  className.bind fun C => (a.forest.lineage C).findSome? fun d => (d.fields.map (·.bind .field)).lookup name

/-- At some nodes names mean parameters and local variables, and fields otherwise. -/
def Analysis.Resolves (a : Analysis) (F : Frame) (stack : List (String × VarBinding)) (ids : List NodeId) : Prop :=
  ∀ id ∈ ids, ∀ name, a.scopes.resolve? id name = (stack.lookup name).or (a.field? F.className name)

/-- Variables have values that suit them; only a local variable that does not count as assigned may have
none. -/
structure Table.Fills (F : Forest) (h : Heap) (stack : List (String × VarBinding)) (assigned : List String)
    (vars : Table (Option Datum)) : Prop where
  declared : ∀ name b, stack.lookup name = some b → ∃ v?, vars.find? name = some v? ∧
    (v? = none → b.storage = .local ∧ name ∉ assigned) ∧ ∀ v, v? = some v → v.Suits F h b.ty
  undeclared : ∀ name, stack.lookup name = none → vars.find? name = none

/-- What holds of the memory before and after each step of a method. -/
structure Memory.Sound (a : Analysis) (F : Frame) (stack : List (String × VarBinding)) (assigned : List String)
    (s : Memory) : Prop where
  heap : s.heap.Sound a.forest
  vars : s.vars.Fills a.forest s.heap stack assigned
  receiver : ∀ C, F.className = some C →
    ∃ loc, F.receiver = some loc ∧ (Datum.ref loc).Suits a.forest s.heap (.object C)
  traced : s.Traced a

/-- The memory is sound after a step, and places have kept their types. -/
structure Memory.Next (a : Analysis) (F : Frame) (stack : List (String × VarBinding)) (assigned : List String)
    (s s' : Memory) : Prop where
  sound : s'.Sound a F stack assigned
  grows : s.heap.Grows s'.heap

section
variable {a : Analysis} {p : Program} {F : Frame} {stack : List (String × VarBinding)}
  {assigned assigned' : List String} {s s' s'' : Memory} {name : String} {b : VarBinding} {v : Datum}

theorem Table.Fills.mono {F : Forest} {h h' : Heap} {vars : Table (Option Datum)}
    (hvars : vars.Fills F h stack assigned) (hgrows : h.Grows h') : vars.Fills F h' stack assigned := by
  refine ⟨fun name b hb => ?_, hvars.undeclared⟩
  obtain ⟨v?, hfind, hnone, hsome⟩ := hvars.declared name b hb
  exact ⟨v?, hfind, hnone, fun v hv => (hsome v hv).mono hgrows⟩

theorem Memory.Sound.forget (hs : s.Sound a F stack assigned') (h : assigned ⊆ assigned') :
    s.Sound a F stack assigned := by
  refine { hs with vars := ⟨fun name b hb => ?_, hs.vars.undeclared⟩ }
  obtain ⟨v?, hfind, hnone, hsome⟩ := hs.vars.declared name b hb
  refine ⟨v?, hfind, fun hv => ⟨(hnone hv).1, fun hmem => (hnone hv).2 (h hmem)⟩, hsome⟩

theorem Memory.Sound.next (hs : s.Sound a F stack assigned) : s.Next a F stack assigned s :=
  ⟨hs, .refl _⟩

theorem Memory.Next.trans (h : s.Next a F stack assigned s') (h' : s'.Next a F stack assigned' s'') :
    s.Next a F stack assigned' s'' :=
  ⟨h'.sound, h.grows.trans h'.grows⟩

/-- A method goes on with its variables in a heap that another one has left. -/
theorem Memory.Sound.resume (hs : s.Sound a F stack assigned) (hgrows : s.heap.Grows s'.heap)
    (hheap : s'.heap.Sound a.forest) (htraced : s'.Traced a) (hvars : s'.vars = s.vars) :
    s.Next a F stack assigned s' := by
  refine ⟨⟨hheap, hvars ▸ hs.vars.mono hgrows, fun C hC => ?_, htraced⟩, hgrows⟩
  obtain ⟨loc, hloc, hsuits⟩ := hs.receiver C hC
  exact ⟨loc, hloc, hsuits.mono hgrows⟩

theorem Analysis.field?_eq_some (hb : a.field? F.className name = some b) :
    ∃ C, F.className = some C ∧ ∃ K ∈ a.forest.lineage C, ∃ f ∈ K.fields, f.bind .field = (name, b) := by
  obtain ⟨C, hC, hb⟩ := Option.bind_eq_some_iff.mp hb
  obtain ⟨K, hK, hlookup⟩ := List.exists_of_findSome?_eq_some hb
  obtain ⟨f, hf, hbind⟩ := List.mem_map.mp (Table.mem_of_lookup hlookup)
  exact ⟨C, hC, K, hK, f, hf, hbind⟩

/-- The object that a method runs on holds the fields that the method knows. -/
theorem Memory.Sound.run_holder (h : a.Describes p) (hs : s.Sound a F stack assigned)
    (hb : a.field? F.className name = some b) :
    ∃ loc D fields v, (Exec.holder p F name).run s = .ok (loc, D, fields, v) s ∧
      s.heap[loc]? = some (.object D fields) ∧ v.Suits a.forest s.heap b.ty ∧
      ∃ K ∈ a.forest.lineage D, ∃ f ∈ K.fields, f.bind .field = (name, b) := by
  obtain ⟨C, hC, K, hK, f, hf, hbind⟩ := Analysis.field?_eq_some hb
  obtain ⟨loc, hreceiver, hsuits⟩ := hs.receiver C hC
  obtain heq | ⟨loc', D, fields, heq, hloc, hsub⟩ := hsuits.object
  · cases heq
  cases heq
  have hKD : K ∈ a.forest.lineage D := (h.lineage_suffix hsub).subset hK
  obtain ⟨rfl, rfl⟩ := Prod.mk.inj hbind
  obtain ⟨v, hfind, hv⟩ := hs.heap _ (List.mem_of_getElem? hloc) K hKD f hf
  have hknown : p.hasField C f.name = true := by
    rw [Program.hasField, h.forest_eq, List.any_eq_true]
    exact ⟨K, hK, List.any_eq_true.mpr ⟨f, hf, decide_eq_true rfl⟩⟩
  refine ⟨loc, D, fields, v, ?_, hloc, hv, K, hKD, f, hf, rfl⟩
  simp only [Exec.holder, hC, hreceiver, hknown, if_true, EStateM.run_bind, EStateM.run_get, hloc, hfind,
    EStateM.run_pure]

/-- A variable that counts as assigned has a value that suits it. -/
theorem Memory.Sound.safe_read (h : a.Describes p) (hs : s.Sound a F stack assigned)
    (hb : (stack.lookup name).or (a.field? F.className name) = some b)
    (hassigned : ¬ (b.storage = .local ∧ name ∉ assigned)) :
    (Exec.read p F name).Safe a s fun v s' => s = s' ∧ v.Suits a.forest s.heap b.ty := by
  cases hlookup : stack.lookup name with
  | some b' =>
      rw [hlookup] at hb
      cases hb
      obtain ⟨v?, hfind, hnone, hsome⟩ := hs.vars.declared name b hlookup
      cases v? with
      | none => exact absurd (hnone rfl) hassigned
      | some v =>
          simp only [Exec.Safe, Exec.read, EStateM.run_bind, EStateM.run_get, hfind, EStateM.run_pure]
          exact ⟨trivial, hsome v rfl⟩
  | none =>
      rw [hlookup] at hb
      obtain ⟨loc, D, fields, v, hholder, _, hv, _⟩ := hs.run_holder h hb
      simp only [Exec.Safe, Exec.read, EStateM.run_bind, EStateM.run_get, hs.vars.undeclared name hlookup,
        hholder, EStateM.run_pure]
      exact ⟨trivial, hv⟩

theorem Memory.Sound.insert (hs : s.Sound a F stack assigned) (hb : stack.lookup name = some b)
    (hv : v.Suits a.forest s.heap b.ty) :
    Memory.Sound a F stack (if b.storage = .local then assigned.insert name else assigned)
      { s with vars := s.vars.insert name (some v) } := by
  refine ⟨hs.heap, ⟨fun name' b' hb' => ?_, fun name' hname' => ?_⟩, hs.receiver, hs.traced⟩
  · rw [Table.find?_insert]
    by_cases hname : name' = name
    · subst hname
      cases hb.symm.trans hb'
      rw [if_pos rfl]
      refine ⟨some v, rfl, nofun, ?_⟩
      rintro _ ⟨⟩
      exact hv
    · rw [if_neg hname]
      obtain ⟨v?, hfind, hnone, hsome⟩ := hs.vars.declared name' b' hb'
      refine ⟨v?, hfind, fun hv? => ⟨(hnone hv?).1, ?_⟩, hsome⟩
      split
      · rw [List.mem_insert_iff]
        exact not_or.mpr ⟨hname, (hnone hv?).2⟩
      · exact (hnone hv?).2
  · rw [Table.find?_insert, if_neg]
    · exact hs.vars.undeclared name' hname'
    · rintro rfl
      rw [hb] at hname'
      cases hname'

/-- A variable is given a value that suits it, and counts as assigned from then on. -/
theorem Memory.Sound.safe_write (h : a.Describes p) (hcheck : p.check a = .ok ())
    (hs : s.Sound a F stack assigned) (hb : (stack.lookup name).or (a.field? F.className name) = some b)
    (hv : v.Suits a.forest s.heap b.ty) :
    (Exec.write p F name v).Safe a s fun _ s' =>
      s.Next a F stack (if b.storage = .local then assigned.insert name else assigned) s' := by
  cases hlookup : stack.lookup name with
  | some b' =>
      rw [hlookup] at hb
      cases hb
      obtain ⟨v?, hfind, _⟩ := hs.vars.declared name b hlookup
      simp only [Exec.Safe, Exec.write, EStateM.run_bind, EStateM.run_get, hfind, EStateM.run_modify]
      exact ⟨hs.insert hlookup hv, .refl _⟩
  | none =>
      rw [hlookup] at hb
      obtain ⟨loc, D, fields, _, hholder, hloc, _, K, hK, f, hf, hbind⟩ := hs.run_holder h hb
      obtain ⟨rfl, rfl⟩ := Prod.mk.inj hbind
      simp only [Exec.Safe, Exec.write, Exec.update, EStateM.run_bind, EStateM.run_get,
        hs.vars.undeclared f.name hlookup, hholder, EStateM.run_modify]
      have hsound := h.sound_insert hcheck (hs.heap _ (List.mem_of_getElem? hloc)) hK hf hv
      exact hs.resume (Heap.grows_set hloc rfl) (hs.heap.set hloc rfl hsound) hs.traced rfl

end

end Demitasse
