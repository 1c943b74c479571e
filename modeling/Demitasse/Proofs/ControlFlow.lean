import Demitasse.Proofs.Lowering
import Demitasse.Proofs.Regions
import Demitasse.Proofs.Spelling

/-! The control flow of compiled functions. What a region adds to a function's graph is closed in itself: its
branches go to its own labels, its labels are reached from the block that it continues, and nobody else
branches to them. -/

namespace Demitasse

theorem Instr.isPhi_of_isTerminator {i : Instr} (h : i.isTerminator = true) : i.isPhi = false := by
  cases i <;> first | rfl | cases h

theorem Instr.isTerminator_of_isPlain {i : Instr} (h : i.isPlain = true) : i.isTerminator = false := by
  cases i <;> first | rfl | cases h

theorem Instr.isPhi_of_isPlain {i : Instr} (h : i.isPlain = true) : i.isPhi = false := by
  cases i <;> first | rfl | cases h

namespace Code

/-- The choices in code that continues the block `x`, with the labels of their blocks. -/
def phisFrom (x : Option Label) (c : Code) : List (Option Label × Instr) :=
  (c.placed x).filter (·.2.isPhi)

theorem phisFrom_append {x : Option Label} {c d : Code} :
    phisFrom x (c ++ d) = phisFrom x c ++ phisFrom (exit x c) d := by
  rw [phisFrom, placed_append, List.filter_append]
  rfl

section
variable {is : List Instr} {x : Option Label}

@[simp] theorem labels_ofInstrs : labels (ofInstrs is) = [] := by
  induction is with
  | nil => rfl
  | cons i is ih => exact ih

@[simp] theorem exit_ofInstrs : exit x (ofInstrs is) = x := by
  induction is with
  | nil => rfl
  | cons i is ih => exact ih

@[simp] theorem placed_ofInstrs : placed x (ofInstrs is) = is.map (x, ·) := by
  induction is with
  | nil => rfl
  | cons i is ih => exact congrArg ((x, i) :: ·) ih

theorem phisFrom_ofInstrs (h : ∀ i ∈ is, i.isPlain = true) : phisFrom x (ofInstrs is) = [] := by
  rw [phisFrom, placed_ofInstrs, List.filter_eq_nil_iff, List.forall_mem_map]
  intro i hi
  rw [Instr.isPhi_of_isPlain (h i hi)]
  exact Bool.false_ne_true

theorem edgesFrom_ofInstrs (h : ∀ i ∈ is, i.isPlain = true) : edgesFrom x (ofInstrs is) = [] := by
  rw [edgesFrom, placed_ofInstrs, List.flatMap_map, List.flatMap_eq_nil_iff]
  intro i hi
  rw [Instr.targets_of_not_isTerminator (Instr.isTerminator_of_isPlain (h i hi))]
  rfl

end

section
variable {x : Option Label} {stem : String} {n : Nat} {cond left right : Operand} {result : Reg}
  {body thenCode elseCode condCode rightCode : Code}

@[simp, grind =] theorem labels_guarded :
    labels (guarded stem n cond body) = ⟨stem, n⟩ :: (labels body ++ [⟨stem, n + 1⟩]) := by
  simp [guarded]

@[simp] theorem exit_guarded : exit x (guarded stem n cond body) = some ⟨stem, n + 1⟩ := by
  simp [guarded]

@[simp, grind =] theorem edgesFrom_guarded : edgesFrom x (guarded stem n cond body) =
    (x, ⟨stem, n⟩) :: (x, ⟨stem, n + 1⟩) :: (edgesFrom (some ⟨stem, n⟩) body
      ++ [(exit (some ⟨stem, n⟩) body, ⟨stem, n + 1⟩)]) := by
  simp [guarded, Instr.targets]

theorem phisFrom_guarded :
    phisFrom x (guarded stem n cond body) = phisFrom (some ⟨stem, n⟩) body := by
  simp [guarded, phisFrom, Instr.isPhi]

@[simp, grind =] theorem labels_choice : labels (choice n cond thenCode elseCode) =
    ⟨"if", n⟩ :: (labels thenCode ++ ⟨"if", n + 1⟩ :: (labels elseCode ++ [⟨"if", n + 2⟩])) := by
  simp [choice]

@[simp] theorem exit_choice : exit x (choice n cond thenCode elseCode) = some ⟨"if", n + 2⟩ := by
  simp [choice]

@[simp, grind =] theorem edgesFrom_choice : edgesFrom x (choice n cond thenCode elseCode) =
    (x, ⟨"if", n⟩) :: (x, ⟨"if", n + 1⟩) :: (edgesFrom (some ⟨"if", n⟩) thenCode
      ++ (exit (some ⟨"if", n⟩) thenCode, ⟨"if", n + 2⟩) :: (edgesFrom (some ⟨"if", n + 1⟩) elseCode
        ++ [(exit (some ⟨"if", n + 1⟩) elseCode, ⟨"if", n + 2⟩)])) := by
  simp [choice, Instr.targets]

theorem phisFrom_choice : phisFrom x (choice n cond thenCode elseCode) =
    phisFrom (some ⟨"if", n⟩) thenCode ++ phisFrom (some ⟨"if", n + 1⟩) elseCode := by
  simp [choice, phisFrom, Instr.isPhi]

@[simp, grind =] theorem labels_cycle : labels (cycle n condCode cond body) =
    ⟨"loop", n⟩ :: (labels condCode ++ ⟨"loop", n + 1⟩ :: (labels body ++ [⟨"loop", n + 2⟩])) := by
  simp [cycle]

@[simp] theorem exit_cycle : exit x (cycle n condCode cond body) = some ⟨"loop", n + 2⟩ := by
  simp [cycle]

@[simp, grind =] theorem edgesFrom_cycle : edgesFrom x (cycle n condCode cond body) =
    (x, ⟨"loop", n⟩) :: (edgesFrom (some ⟨"loop", n⟩) condCode
      ++ (exit (some ⟨"loop", n⟩) condCode, ⟨"loop", n + 1⟩)
      :: (exit (some ⟨"loop", n⟩) condCode, ⟨"loop", n + 2⟩) :: (edgesFrom (some ⟨"loop", n + 1⟩) body
        ++ [(exit (some ⟨"loop", n + 1⟩) body, ⟨"loop", n⟩)])) := by
  simp [cycle, Instr.targets]

theorem phisFrom_cycle : phisFrom x (cycle n condCode cond body) =
    phisFrom (some ⟨"loop", n⟩) condCode ++ phisFrom (some ⟨"loop", n + 1⟩) body := by
  simp [cycle, phisFrom, Instr.isPhi]

@[simp, grind =] theorem labels_conjunction : labels (conjunction n left rightCode right result) =
    ⟨"andcond", n⟩ :: ⟨"andcond", n + 1⟩ :: (labels rightCode ++ [⟨"andcond", n + 2⟩, ⟨"andcond", n + 3⟩]) := by
  simp [conjunction]

@[simp] theorem exit_conjunction :
    exit x (conjunction n left rightCode right result) = some ⟨"andcond", n + 3⟩ := by
  simp [conjunction]

@[simp, grind =] theorem edgesFrom_conjunction : edgesFrom x (conjunction n left rightCode right result) =
    (x, ⟨"andcond", n⟩) :: (some ⟨"andcond", n⟩, ⟨"andcond", n + 1⟩)
      :: (some ⟨"andcond", n⟩, ⟨"andcond", n + 3⟩) :: (edgesFrom (some ⟨"andcond", n + 1⟩) rightCode
        ++ [(exit (some ⟨"andcond", n + 1⟩) rightCode, ⟨"andcond", n + 2⟩),
          (some ⟨"andcond", n + 2⟩, ⟨"andcond", n + 3⟩)]) := by
  simp [conjunction, Instr.targets]

theorem phisFrom_conjunction : phisFrom x (conjunction n left rightCode right result) =
    phisFrom (some ⟨"andcond", n + 1⟩) rightCode ++ [(some ⟨"andcond", n + 3⟩,
      .phi result .i1 [(.const 0, ⟨"andcond", n⟩), (right, ⟨"andcond", n + 2⟩)])] := by
  simp [conjunction, phisFrom, Instr.isPhi]

end

/-- Code that continues a block: it leaves every block at its end, and a choice comes first in a block. -/
structure Arranged (c : Code) : Prop where
  closed : ∀ x, ∀ b ∈ c.blocksFrom x, b.Closed
  continued : ∀ i ∈ c.body, i.isPhi = false
  led : ∀ b ∈ c.labelled, ∀ i ∈ b.body.tail, i.isPhi = false

namespace Arranged

variable {i : Instr} {l : Label} {c : Code}

theorem closed_cons {x : Option Label} {is : List Instr} (hi : i.isTerminator = false)
    (h : Block.Closed ⟨x, is⟩) (y : Option Label) : Block.Closed ⟨y, i :: is⟩ := by
  obtain ⟨before, last, hbody, hlast, hbefore⟩ := h
  refine ⟨i :: before, last, congrArg (i :: ·) hbody, hlast, ?_⟩
  exact List.forall_mem_cons.mpr ⟨hi, hbefore⟩

theorem plain (hi : i.isPlain = true) (h : Arranged c) : Arranged (.instr i :: c) := by
  constructor
  · intro x
    obtain ⟨hfirst, hrest⟩ := List.forall_mem_cons.mp (h.closed x)
    exact List.forall_mem_cons.mpr ⟨closed_cons (Instr.isTerminator_of_isPlain hi) hfirst x, hrest⟩
  · exact List.forall_mem_cons.mpr ⟨Instr.isPhi_of_isPlain hi, h.continued⟩
  · exact h.led

theorem last (hi : i.isTerminator = true) : Arranged [.instr i] := by
  constructor
  · intro x
    exact List.forall_mem_cons.mpr ⟨⟨[], i, rfl, hi, List.forall_mem_nil _⟩, List.forall_mem_nil _⟩
  · exact List.forall_mem_cons.mpr ⟨Instr.isPhi_of_isTerminator hi, List.forall_mem_nil _⟩
  · exact nofun

theorem leave (hi : i.isTerminator = true) (h : Arranged c) : Arranged (.instr i :: .label l :: c) := by
  constructor
  · intro x
    exact List.forall_mem_cons.mpr ⟨⟨[], i, rfl, hi, List.forall_mem_nil _⟩, h.closed (some l)⟩
  · exact List.forall_mem_cons.mpr ⟨Instr.isPhi_of_isTerminator hi, List.forall_mem_nil _⟩
  · exact List.forall_mem_cons.mpr ⟨fun j hj => h.continued j (List.mem_of_mem_tail hj), h.led⟩

theorem choose {j : Instr} (hi : i.isTerminator = true) (hj : j.isTerminator = false) (h : Arranged c) :
    Arranged (.instr i :: .label l :: .instr j :: c) := by
  constructor
  · intro x
    obtain ⟨hfirst, hrest⟩ := List.forall_mem_cons.mp (h.closed (some l))
    exact List.forall_mem_cons.mpr ⟨⟨[], i, rfl, hi, List.forall_mem_nil _⟩,
      List.forall_mem_cons.mpr ⟨closed_cons hj hfirst (some l), hrest⟩⟩
  · exact List.forall_mem_cons.mpr ⟨Instr.isPhi_of_isTerminator hi, List.forall_mem_nil _⟩
  · exact List.forall_mem_cons.mpr ⟨h.continued, h.led⟩

theorem ofInstrs_append {is : List Instr} (his : ∀ i ∈ is, i.isPlain = true) (h : Arranged c) :
    Arranged (ofInstrs is ++ c) := by
  induction is with
  | nil => exact h
  | cons i is ih =>
      obtain ⟨hi, his⟩ := List.forall_mem_cons.mp his
      exact (ih his).plain hi

theorem eq_nil_of_isPhi (h : Arranged c) {b : Block} (hb : b ∈ c.blocks) {before after : List Instr}
    (hbody : b.body = before ++ i :: after) (hi : i.isPhi = true) : before = [] := by
  rcases List.mem_cons.mp hb with rfl | hb
  · have hmem : i ∈ c.body := by
      rw [show c.body = before ++ i :: after from hbody]
      exact List.mem_append_right _ List.mem_cons_self
    rw [h.continued i hmem] at hi
    cases hi
  · cases before with
    | nil => rfl
    | cons j before =>
        rw [h.led b hb i (by simp [hbody])] at hi
        cases hi

end Arranged

/-- Where the edges to a label come from. -/
def sources (E : List (Option Label × Label)) (l : Label) : List (Option Label) :=
  (E.filter fun e => e.2 = l).map (·.1)

section
variable {E F : List (Option Label × Label)} {x : Option Label} {l : Label}

@[simp] theorem sources_nil : sources [] l = [] :=
  rfl

@[simp] theorem sources_append : sources (E ++ F) l = sources E l ++ sources F l := by
  simp [sources]

theorem sources_cons_of_ne {stem : String} {n : Nat} (h : n ≠ l.index) :
    sources ((x, ⟨stem, n⟩) :: E) l = sources E l := by
  have hne : ⟨stem, n⟩ ≠ l := by
    rintro rfl
    exact h rfl
  simp [sources, hne]

@[simp] theorem sources_cons_self : sources ((x, l) :: E) l = x :: sources E l := by
  simp [sources]

theorem sources_eq_nil (h : ∀ e ∈ E, e.2 ≠ l) : sources E l = [] := by
  rw [sources, List.map_eq_nil_iff, List.filter_eq_nil_iff]
  intro e he hl
  exact h e he (of_decide_eq_true hl)

end

end Code

/-! ### Regions -/

namespace Region

variable {S : Reg → Prop} {s t : Point} {c : Code} {x : Option Label}

open Code

/-- The labels of a region have the numbers from its start to its end, every number once. -/
theorem count_index (h : Region S s c t) (k : Nat) :
    (c.labels.map Label.index).count k = if s.nextLabel ≤ k ∧ k < t.nextLabel then 1 else 0 := by
  induction h with
  | nil s =>
      rw [if_neg (by omega)]
      rfl
  | append hc hd ihc ihd =>
      have hlc := hc.nextLabel_le
      have hld := hd.nextLabel_le
      rw [labels_append, List.map_append, List.count_append, ihc, ihd]
      split_ifs <;> omega
  | effect _ _ _ =>
      rw [if_neg (by omega)]
      rfl
  | value _ _ _ =>
      rw [Point.define_nextLabel, if_neg (by omega)]
      rfl
  | guarded _ _ hbody ih =>
      have hle := hbody.nextLabel_le
      simp only [labels_guarded, List.map_cons, List.map_append, List.map_nil, List.count_cons, List.count_append,
        List.count_nil, ih, beq_iff_eq, Point.label_nextLabel, Point.rejoin_nextLabel] at hle ⊢
      split_ifs <;> omega
  | choice _ hthen helse ihthen ihelse =>
      have hlt := hthen.nextLabel_le
      have hle := helse.nextLabel_le
      simp only [labels_choice, List.map_cons, List.map_append, List.map_nil, List.count_cons, List.count_append,
        List.count_nil, ihthen, ihelse, beq_iff_eq, Point.label_nextLabel, Point.rejoin_nextLabel] at hlt hle ⊢
      split_ifs <;> omega
  | cycle hcond _ hbody ihcond ihbody =>
      have hlc := hcond.nextLabel_le
      have hlb := hbody.nextLabel_le
      simp only [labels_cycle, List.map_cons, List.map_append, List.map_nil, List.count_cons, List.count_append,
        List.count_nil, ihcond, ihbody, beq_iff_eq, Point.label_nextLabel, Point.rejoin_nextLabel] at hlc hlb ⊢
      split_ifs <;> omega
  | conjunction _ hright _ ih =>
      have hle := hright.nextLabel_le
      simp only [labels_conjunction, List.map_cons, List.map_append, List.map_nil, List.count_cons, List.count_append,
        List.count_nil, ih, beq_iff_eq, Point.label_nextLabel, Point.rejoin_nextLabel,
        Point.define_nextLabel] at hle ⊢
      split_ifs <;> omega

theorem index_bounds (h : Region S s c t) {l : Label} (hl : l ∈ c.labels) :
    s.nextLabel ≤ l.index ∧ l.index < t.nextLabel := by
  have hpos : 0 < (c.labels.map Label.index).count l.index := List.count_pos_iff.mpr (List.mem_map_of_mem hl)
  rw [h.count_index] at hpos
  by_contra hne
  rw [if_neg hne] at hpos
  exact Nat.lt_irrefl 0 hpos

theorem labels_nodup (h : Region S s c t) : (c.labels.map Label.index).Nodup := by
  rw [List.nodup_iff_count]
  intro k
  rw [h.count_index]
  split_ifs <;> omega

/-- The branches of a region stay inside it. -/
theorem targets_mem (h : Region S s c t) : ∀ e ∈ c.edgesFrom x, e.2 ∈ c.labels := by
  induction h generalizing x with
  | nil s => exact List.forall_mem_nil _
  | append hc hd ihc ihd => grind
  | effect hplain _ _ | value hplain _ _ =>
      rw [show [_] = Code.ofInstrs [_] from rfl, edgesFrom_ofInstrs (List.forall_mem_singleton.mpr hplain)]
      exact List.forall_mem_nil _
  | guarded _ _ hbody ih => grind
  | choice _ hthen helse ihthen ihelse => grind
  | cycle hcond _ hbody ihcond ihbody => grind
  | conjunction _ hright _ ih => grind

/-- What holds of the block that a region continues, and goes over from blocks to those they branch to,
holds of all of its blocks. -/
theorem reaches {P : Option Label → Prop} (h : Region S s c t) (hx : P x)
    (hstep : ∀ e ∈ c.edgesFrom x, P e.1 → P (some e.2)) : (∀ l ∈ c.labels, P (some l)) ∧ P (c.exit x) := by
  induction h generalizing x with
  | nil s => exact ⟨List.forall_mem_nil _, hx⟩
  | append hc hd ihc ihd =>
      rw [edgesFrom_append, List.forall_mem_append] at hstep
      obtain ⟨hc, hexit⟩ := ihc hx hstep.1
      obtain ⟨hd, hexit⟩ := ihd hexit hstep.2
      rw [labels_append, exit_append]
      exact ⟨List.forall_mem_append.mpr ⟨hc, hd⟩, hexit⟩
  | effect _ _ _ => exact ⟨List.forall_mem_nil _, hx⟩
  | value _ _ _ => exact ⟨List.forall_mem_nil _, hx⟩
  | guarded _ _ _ ih =>
      simp only [edgesFrom_guarded, List.forall_mem_cons, List.forall_mem_append] at hstep
      obtain ⟨hn, hm, hbody, _⟩ := hstep
      obtain ⟨hbody, _⟩ := ih (hn hx) hbody
      simp only [labels_guarded, exit_guarded, List.forall_mem_cons, List.forall_mem_append]
      exact ⟨⟨hn hx, hbody, hm hx, List.forall_mem_nil _⟩, hm hx⟩
  | choice _ _ _ ihthen ihelse =>
      simp only [edgesFrom_choice, List.forall_mem_cons, List.forall_mem_append] at hstep
      obtain ⟨hn, hm, hthen, hend, helse, _⟩ := hstep
      obtain ⟨hthen, hexit⟩ := ihthen (hn hx) hthen
      obtain ⟨helse, _⟩ := ihelse (hm hx) helse
      simp only [labels_choice, exit_choice, List.forall_mem_cons, List.forall_mem_append]
      exact ⟨⟨hn hx, hthen, hm hx, helse, hend hexit, List.forall_mem_nil _⟩, hend hexit⟩
  | cycle _ _ _ ihcond ihbody =>
      simp only [edgesFrom_cycle, List.forall_mem_cons, List.forall_mem_append] at hstep
      obtain ⟨hn, hcond, hm, hend, hbody, _⟩ := hstep
      obtain ⟨hcond, hexit⟩ := ihcond (hn hx) hcond
      obtain ⟨hbody, _⟩ := ihbody (hm hexit) hbody
      simp only [labels_cycle, exit_cycle, List.forall_mem_cons, List.forall_mem_append]
      exact ⟨⟨hn hx, hcond, hm hexit, hbody, hend hexit, List.forall_mem_nil _⟩, hend hexit⟩
  | conjunction _ _ _ ih =>
      simp only [edgesFrom_conjunction, List.forall_mem_cons, List.forall_mem_append] at hstep
      obtain ⟨hn, hright, hend, hcode, hdone, _⟩ := hstep
      have hfirst := hn hx
      obtain ⟨hcode, hexit⟩ := ih (hright hfirst) hcode
      simp only [labels_conjunction, exit_conjunction, List.forall_mem_cons, List.forall_mem_append]
      exact ⟨⟨hfirst, hright hfirst, hcode, hdone hexit, hend hfirst, List.forall_mem_nil _⟩, hend hfirst⟩

/-- A region keeps the shape of the blocks that it is put in front of. -/
theorem arranged (h : Region S s c t) {d : Code} (hd : Arranged d) : Arranged (c ++ d) := by
  induction h generalizing d with
  | nil s => exact hd
  | append _ _ ihc ihd =>
      rw [List.append_assoc]
      exact ihc (ihd hd)
  | effect hplain _ _ => exact hd.plain hplain
  | value hplain _ _ => exact hd.plain hplain
  | guarded _ _ _ ih =>
      simp only [Code.guarded, List.append_assoc, List.cons_append, List.nil_append]
      exact .leave rfl (ih (.leave rfl hd))
  | choice _ _ _ ihthen ihelse =>
      simp only [Code.choice, List.append_assoc, List.cons_append, List.nil_append]
      exact .leave rfl (ihthen (.leave rfl (ihelse (.leave rfl hd))))
  | cycle _ _ _ ihcond ihbody =>
      simp only [Code.cycle, List.append_assoc, List.cons_append, List.nil_append]
      exact .leave rfl (ihcond (.leave rfl (ihbody (.leave rfl hd))))
  | conjunction _ _ _ ih =>
      simp only [Code.conjunction, List.append_assoc, List.cons_append, List.nil_append]
      exact .leave rfl (.leave rfl (ih (.leave rfl (.choose rfl rfl hd))))

theorem sources_eq_nil (h : Region S s c t) {l : Label} (hl : l.index < s.nextLabel ∨ t.nextLabel ≤ l.index) :
    sources (c.edgesFrom x) l = [] := by
  refine Code.sources_eq_nil ?_
  rintro e he rfl
  have hbounds := h.index_bounds (h.targets_mem e he)
  omega

/-- The choices of a region name the blocks from which edges come, in any graph that has no further edges to
the labels of the region. -/
theorem phis_match (h : Region S s c t) {E : List (Option Label × Label)}
    (hE : ∀ l ∈ c.labels, sources E l = sources (c.edgesFrom x) l) :
    ∀ p ∈ c.phisFrom x, ∃ l, p.1 = some l ∧ p.2.incoming.map (some ·.2) = sources E l := by
  induction h generalizing x with
  | nil s => exact List.forall_mem_nil _
  | append hc hd ihc ihd =>
      rw [labels_append, List.forall_mem_append] at hE
      rw [phisFrom_append, List.forall_mem_append]
      constructor
      · refine ihc fun l hl => ?_
        rw [hE.1 l hl, edgesFrom_append, sources_append, hd.sources_eq_nil (.inl (hc.index_bounds hl).2),
          List.append_nil]
      · refine ihd fun l hl => ?_
        rw [hE.2 l hl, edgesFrom_append, sources_append, hc.sources_eq_nil (.inr (hd.index_bounds hl).1),
          List.nil_append]
  | effect hplain _ _ | value hplain _ _ =>
      rw [← Code.ofInstrs_nil, ← Code.ofInstrs_cons, phisFrom_ofInstrs (List.forall_mem_singleton.mpr hplain)]
      exact List.forall_mem_nil _
  | guarded stem _ hbody ih =>
      rw [phisFrom_guarded]
      refine ih fun l hl => ?_
      have hbounds := hbody.index_bounds hl
      rw [Point.label_nextLabel] at hbounds
      rw [hE l (by simp [hl]), edgesFrom_guarded]
      simp (disch := omega) only [sources_cons_of_ne, sources_append, sources_nil, List.append_nil]
  | choice _ hthen helse ihthen ihelse =>
      have hle := hthen.nextLabel_le
      rw [Point.label_nextLabel] at hle
      rw [phisFrom_choice, List.forall_mem_append]
      constructor
      · refine ihthen fun l hl => ?_
        have hbounds := hthen.index_bounds hl
        rw [Point.label_nextLabel] at hbounds
        rw [hE l (by simp [hl]), edgesFrom_choice]
        simp (disch := omega) only [sources_cons_of_ne, sources_append, sources_nil, List.append_nil,
          helse.sources_eq_nil (.inl hbounds.2)]
      · refine ihelse fun l hl => ?_
        have hbounds := helse.index_bounds hl
        rw [Point.rejoin_nextLabel] at hbounds
        rw [hE l (by simp [hl]), edgesFrom_choice]
        simp (disch := omega) only [sources_cons_of_ne, sources_append, sources_nil, List.append_nil,
          hthen.sources_eq_nil (.inr hbounds.1), List.nil_append]
  | cycle hcond _ hbody ihcond ihbody =>
      have hle := hcond.nextLabel_le
      rw [Point.label_nextLabel] at hle
      rw [phisFrom_cycle, List.forall_mem_append]
      constructor
      · refine ihcond fun l hl => ?_
        have hbounds := hcond.index_bounds hl
        rw [Point.label_nextLabel] at hbounds
        rw [hE l (by simp [hl]), edgesFrom_cycle]
        simp (disch := omega) only [sources_cons_of_ne, sources_append, sources_nil, List.append_nil,
          hbody.sources_eq_nil (.inl hbounds.2)]
      · refine ihbody fun l hl => ?_
        have hbounds := hbody.index_bounds hl
        rw [hE l (by simp [hl]), edgesFrom_cycle]
        simp (disch := omega) only [sources_cons_of_ne, sources_append, sources_nil, List.append_nil,
          hcond.sources_eq_nil (.inr hbounds.1), List.nil_append]
  | conjunction _ hright _ ih =>
      rw [phisFrom_conjunction, List.forall_mem_append, List.forall_mem_singleton]
      constructor
      · refine ih fun l hl => ?_
        have hbounds := hright.index_bounds hl
        rw [Point.label_nextLabel] at hbounds
        rw [hE l (by simp [hl]), edgesFrom_conjunction]
        simp (disch := omega) only [sources_cons_of_ne, sources_append, sources_nil, List.append_nil]
      · refine ⟨_, rfl, ?_⟩
        rw [hE _ (by simp), edgesFrom_conjunction]
        simp (disch := simp) only [sources_cons_of_ne, sources_cons_self, sources_append, sources_nil,
          hright.sources_eq_nil (.inl _), List.nil_append]
        rfl

end Region

namespace Code

theorem mem_labels_of_mem_blocks {c : Code} {b : Block} (hb : b ∈ c.blocks) :
    b.label = none ∨ ∃ l ∈ c.labels, b.label = some l := by
  rcases List.mem_cons.mp hb with rfl | hb
  · exact Or.inl rfl
  · have hlabel : b.label ∈ c.labels.map some := by
      rw [← labels_eq]
      exact List.mem_map_of_mem hb
    obtain ⟨l, hl, hb⟩ := List.mem_map.mp hlabel
    exact Or.inr ⟨l, hl, hb.symm⟩

theorem mem_labels_of_mem_predecessors {c : Code} {k l : Label} (h : some k ∈ c.predecessors l) :
    k ∈ c.labels := by
  obtain ⟨e, he, hk⟩ := List.mem_map.mp h
  obtain ⟨b, hb, hlabel, _⟩ := mem_edges.mp (List.mem_of_mem_filter he)
  rcases mem_labels_of_mem_blocks hb with hnone | ⟨m, hm, hsome⟩
  · rw [hnone, hk] at hlabel
    cases hlabel
  · rw [hsome, hk] at hlabel
    cases hlabel
    exact hm

theorem Reachable.step {c : Code} {x : Option Label} {l : Label} (h : c.Reachable x) (he : (x, l) ∈ c.edges) :
    c.Reachable (some l) := by
  obtain ⟨passed, hpath⟩ := h
  exact ⟨x :: passed, hpath.step he⟩

/-- Instructions in a row, a region and an instruction that leaves the function make up a graph. -/
theorem controlFlow {S : Reg → Prop} {s t : Point} (is : List Instr) {c : Code} (last : Instr)
    (his : ∀ i ∈ is, i.isPlain = true) (h : Region S s c t) (hlast : last.isTerminator = true)
    (htargets : last.targets = []) : ControlFlow (ofInstrs is ++ c ++ [.instr last]) := by
  have hlabels : labels (ofInstrs is ++ c ++ [.instr last]) = c.labels := by simp
  have hedges : edges (ofInstrs is ++ c ++ [.instr last]) = c.edgesFrom none := by
    simp [edges_eq, edgesFrom_ofInstrs his, htargets]
  have hphis : phisFrom none (ofInstrs is ++ c ++ [.instr last]) = c.phisFrom none := by
    have hphi := Instr.isPhi_of_isTerminator hlast
    rw [phisFrom_append, phisFrom_append, phisFrom_ofInstrs his, exit_ofInstrs]
    simp [phisFrom, hphi]
  have harranged : Arranged (ofInstrs is ++ c ++ [.instr last]) := by
    rw [List.append_assoc]
    exact .ofInstrs_append his (h.arranged (.last hlast))
  generalize ofInstrs is ++ c ++ [.instr last] = code at *
  constructor
  · rw [hlabels]
    exact Label.nodup_text h.labels_nodup
  · intro b hb l hl
    have hedge : (b.label, l) ∈ c.edgesFrom none := by
      rw [← hedges]
      exact mem_edges.mpr ⟨b, hb, rfl, hl⟩
    rw [hlabels]
    exact h.targets_mem _ hedge
  · exact harranged.closed none
  · have hreach := h.reaches (P := code.Reachable) (x := none) ⟨[], .entry⟩ fun e he hx =>
      hx.step (by rwa [hedges])
    intro b hb
    rcases mem_labels_of_mem_blocks hb with hnone | ⟨l, hl, hsome⟩
    · rw [hnone]
      exact ⟨[], .entry⟩
    · rw [hsome]
      exact hreach.1 l (hlabels ▸ hl)
  · intro b hb before i after hbody hphi
    have hplaced : (b.label, i) ∈ c.phisFrom none := by
      rw [← hphis, phisFrom, List.mem_filter]
      exact ⟨mem_placed.mpr ⟨b, hb, rfl, hbody ▸ List.mem_append_right _ List.mem_cons_self⟩, hphi⟩
    obtain ⟨l, hl, hincoming⟩ := h.phis_match (fun _ _ => rfl) _ hplaced
    have hpredecessors : i.incoming.map (some ·.2) = code.predecessors l := by
      rw [predecessors, hedges]
      exact hincoming
    refine ⟨harranged.eq_nil_of_isPhi hb hbody hphi, ?_, l, hl, hpredecessors⟩
    intro v hv
    apply mem_labels_of_mem_predecessors (l := l)
    rw [← hpredecessors]
    exact List.mem_map_of_mem hv

end Code

section
variable {a : Analysis} {names names' : Names} {code : Code} {f : IrFunction}

open Lower

theorem lowerFormals_plain {fs : List VarDecl} (h : (lowerFormals fs).run names = .ok (code, names')) :
    ∃ is, code = Code.ofInstrs is ∧ ∀ i ∈ is, i.isPlain = true := by
  induction fs generalizing names names' code with
  | nil =>
      cases run_pure_eq_ok.mp h
      exact ⟨[], rfl, List.forall_mem_nil _⟩
  | cons v rest ih =>
      rw [lowerFormals, run_slot_bind] at h
      obtain ⟨restCode, _, hrest, h⟩ := run_bind_eq_ok.mp h
      cases run_pure_eq_ok.mp h
      obtain ⟨is, rfl, his⟩ := ih hrest
      exact ⟨_ :: _ :: is, rfl, List.forall_mem_cons.mpr ⟨rfl, List.forall_mem_cons.mpr ⟨rfl, his⟩⟩⟩

theorem lowerLocals_plain {vs : List VarDecl} (h : (lowerLocals vs).run names = .ok (code, names')) :
    ∃ is, code = Code.ofInstrs is ∧ ∀ i ∈ is, i.isPlain = true := by
  induction vs generalizing names names' code with
  | nil =>
      cases run_pure_eq_ok.mp h
      exact ⟨[], rfl, List.forall_mem_nil _⟩
  | cons v rest ih =>
      rw [lowerLocals, run_slot_bind] at h
      obtain ⟨restCode, _, hrest, h⟩ := run_bind_eq_ok.mp h
      cases run_pure_eq_ok.mp h
      obtain ⟨is, rfl, his⟩ := ih hrest
      exact ⟨_ :: is, rfl, List.forall_mem_cons.mpr ⟨rfl, his⟩⟩

/-- Without a check nothing is known about addresses. -/
theorem Context.addresses_true (Γ : Context) (ids : List NodeId) :
    Γ.Addresses ids (fun _ => True) fun _ => True :=
  ⟨fun _ _ => trivial, fun _ _ _ _ _ _ _ _ => ⟨trivial, trivial⟩⟩

theorem MethodDecl.controlFlow {className : String} {m : MethodDecl} (h : m.lower a className = .ok f) :
    f.code.ControlFlow := by
  obtain ⟨formalsCode, names₁, localsCode, names₂, bodyCode, names₃, resultCode, result, names₄, hformals,
    hlocals, hbody, hresult, rfl⟩ := MethodDecl.lower_eq_ok h
  obtain ⟨is, rfl, his⟩ := lowerFormals_plain hformals
  obtain ⟨js, rfl, hjs⟩ := lowerLocals_plain hlocals
  have hΓ := Context.addresses_true ⟨a, some className⟩
  obtain ⟨known₃, hbody, _, _⟩ :=
    Stmt.emits_lowerAll (hΓ _) m.body [] (List.Subset.refl _) hbody trivial
  obtain ⟨known₄, hresult, _, _⟩ :=
    m.result.emits_lower (hΓ _) known₃ (List.Subset.refl _) hresult trivial
  have hplain : ∀ i ∈ is ++ js, i.isPlain = true := List.forall_mem_append.mpr ⟨his, hjs⟩
  have hflow := Code.controlFlow _ (.ret m.returnType.ir result.operand) hplain (.append hbody hresult) rfl rfl
  rwa [Code.ofInstrs_append, ← List.append_assoc] at hflow

theorem MainClass.controlFlow {m : MainClass} (h : m.lower a = .ok f) : f.code.ControlFlow := by
  obtain ⟨code, names, hbody, rfl⟩ := MainClass.lower_eq_ok h
  obtain ⟨known, hbody, _, _⟩ :=
    m.body.emits_lower (Context.addresses_true ⟨a, none⟩ _) [] (List.Subset.refl _) hbody trivial
  exact Code.controlFlow [] _ (List.forall_mem_nil _) hbody rfl rfl

theorem helpers_controlFlow : ∀ f ∈ preamble.helpers, f.code.ControlFlow := by
  have hnil := Region.nil (S := fun _ => True) ⟨0, 0, []⟩
  simp only [preamble, List.forall_mem_cons]
  refine ⟨?_, ?_, List.forall_mem_nil _⟩
  · exact Code.controlFlow [_, _] .retVoid (by simp [Instr.isPlain, Instr.isTerminator, Instr.isPhi]) hnil rfl rfl
  · exact Code.controlFlow [_, _, _] .retVoid (by simp [Instr.isPlain, Instr.isTerminator, Instr.isPhi]) hnil rfl
      rfl

end

/-- Every function of a lowered program has well-formed control flow, whatever the analysis says. -/
theorem functions_controlFlow {p : Program} {a : Analysis} {M : IrModule} (h : p.lower a = .ok M) :
    ∀ f ∈ M.preamble.helpers ++ M.functions, f.code.ControlFlow := by
  obtain ⟨hpreamble, _, hfunctions⟩ := Program.lower_eq_ok h
  rw [hpreamble, List.forall_mem_append]
  refine ⟨helpers_controlFlow, fun f hf => ?_⟩
  rcases (hfunctions f).mp hf with hmain | ⟨c, _, m, _, hm⟩
  · exact MainClass.controlFlow hmain
  · exact MethodDecl.controlFlow hm

/-- Conjunctions in the condition of a loop, one inside the other, and a guarded access in its body. -/
def searchSource : String :=
  "class A\x7bpublic static void main(String[]a)\x7b" ++
    "while(true&&1<2&&!false)System.out.println((new int[3])[0]);\x7d\x7d"

theorem functions_controlFlow_search : ∃ p a M, parse searchSource = .ok p ∧ Analysis.ofProgram p = .ok a ∧
    p.lower a = .ok M ∧ ∀ f ∈ M.preamble.helpers ++ M.functions, f.code.ControlFlow := by
  have hvalid : (isValid searchSource).toOption = some true := by decide +kernel
  obtain ⟨p, a, hparse, ha, hcheck⟩ := accepted_of_isValid hvalid
  obtain ⟨M, hM⟩ := Program.exists_lower (nodeIds_nodup_of_parse hparse) ha hcheck
  exact ⟨p, a, M, hparse, ha, hM, functions_controlFlow hM⟩

end Demitasse
