import Demitasse.Ir.Code

/-! The control flow of a function. Its code is cut into blocks at the labels; the first block has no label
and is the one that is entered. Branches are the edges between blocks, and paths along edges from the entry
say which blocks can be reached and which ones are always passed on the way to another. -/

namespace Demitasse

namespace Instr

/-- Whether an instruction leaves its block. -/
def isTerminator : Instr → Bool
  | .branch _ | .branchIf .. | .ret .. | .retVoid => true
  | _ => false

/-- The labels at which an instruction may go on. -/
def targets : Instr → List Label
  | .branch target => [target]
  | .branchIf _ ifTrue ifFalse => [ifTrue, ifFalse]
  | _ => []

/-- Whether an instruction chooses a value by the block that control came from. -/
def isPhi : Instr → Bool
  | .phi .. => true
  | _ => false

/-- The values to choose from, with the labels that they belong to. -/
def incoming : Instr → List (Operand × Label)
  | .phi _ _ incoming => incoming
  | _ => []

theorem targets_of_not_isTerminator {i : Instr} (h : i.isTerminator = false) : i.targets = [] := by
  cases i <;> first | rfl | cases h

end Instr

/-- The label that a line is. -/
def Line.label? : Line → Option Label
  | .label l => some l
  | .instr _ => none

/-- The instructions between two labels. -/
structure Block where
  /-- the label in front, which the first block does not have -/
  label : Option Label
  body : List Instr
deriving DecidableEq

namespace Block

/-- The labels to which control may go from a block. -/
def targets (b : Block) : List Label :=
  b.body.flatMap Instr.targets

/-- The edges that leave a block. -/
def edges (b : Block) : List (Option Label × Label) :=
  b.targets.map (b.label, ·)

/-- The last instruction of a block leaves it, and no other one does. -/
def Closed (b : Block) : Prop :=
  ∃ before last, b.body = before ++ [last] ∧ last.isTerminator = true ∧
    ∀ i ∈ before, i.isTerminator = false

end Block

namespace Code

/-- The labels that stand in some code. -/
def labels (c : Code) : List Label :=
  c.filterMap Line.label?

/-- The instructions in front of the first label. -/
def body : Code → List Instr
  | [] | .label _ :: _ => []
  | .instr i :: c => i :: body c

/-- The blocks from the first label on. -/
def labelled : Code → List Block
  | [] => []
  | .label l :: c => ⟨some l, body c⟩ :: labelled c
  | .instr _ :: c => labelled c

/-- The blocks of code that continues a block with the given label. -/
def blocksFrom (x : Option Label) (c : Code) : List Block :=
  ⟨x, c.body⟩ :: c.labelled

/-- The blocks of a function's code. -/
def blocks (c : Code) : List Block :=
  c.blocksFrom none

/-- From which blocks control may go to which labels. -/
def edges (c : Code) : List (Option Label × Label) :=
  c.blocks.flatMap Block.edges

/-- The blocks from which control may go to a label, one for every edge. -/
def predecessors (c : Code) (l : Label) : List (Option Label) :=
  (c.edges.filter fun e => e.2 = l).map (·.1)

/-- The ways from the entry along edges. The block that was reached last stands first. -/
inductive Path (c : Code) : List (Option Label) → Prop
  | entry : Path c [none]
  | step {x : Option Label} {passed : List (Option Label)} {l : Label} :
      Path c (x :: passed) → (x, l) ∈ c.edges → Path c (some l :: x :: passed)

/-- Some way leads from the entry to a block. -/
def Reachable (c : Code) (x : Option Label) : Prop :=
  ∃ passed, c.Path (x :: passed)

/-- Every way from the entry to `y` passes `x`. -/
def Dominates (c : Code) (x y : Option Label) : Prop :=
  ∀ passed, c.Path (y :: passed) → x ∈ y :: passed

/-- The blocks of a function make up a graph. -/
structure ControlFlow (c : Code) : Prop where
  /-- no two labels are written alike -/
  labels : (c.labels.map Label.text).Nodup
  /-- branches stay inside the function -/
  targets : ∀ b ∈ c.blocks, ∀ l ∈ b.targets, l ∈ c.labels
  /-- control leaves every block at its end and nowhere else -/
  closed : ∀ b ∈ c.blocks, b.Closed
  reachable : ∀ b ∈ c.blocks, c.Reachable b.label
  /-- a choice comes first in its block and names the predecessors of that block -/
  phis : ∀ b ∈ c.blocks, ∀ before i after, b.body = before ++ i :: after → i.isPhi = true →
    before = [] ∧ (∀ v ∈ i.incoming, v.2 ∈ c.labels) ∧
      ∃ l, b.label = some l ∧ i.incoming.map (some ·.2) = c.predecessors l

section
variable {l : Label} {i : Instr} {c d : Code}

@[simp] theorem labels_nil : labels [] = [] :=
  rfl

@[simp] theorem labels_label : labels (.label l :: c) = l :: labels c :=
  rfl

@[simp] theorem labels_instr : labels (.instr i :: c) = labels c :=
  rfl

@[simp, grind =] theorem labels_append : labels (c ++ d) = labels c ++ labels d :=
  List.filterMap_append

theorem labels_eq (c : Code) : c.labelled.map (·.label) = c.labels.map some := by
  induction c with
  | nil => rfl
  | cons line c ih =>
      cases line with
      | label l => exact congrArg (some l :: ·) ih
      | instr i => exact ih

end

/-! What follows is about code that starts inside a block, whose label is given. It is composed line by line, so
it can be said of two codes in a row. -/

/-- The instructions of code that continues the block `x`, with the labels of their blocks. -/
def placed (x : Option Label) : Code → List (Option Label × Instr)
  | [] => []
  | .label l :: c => placed (some l) c
  | .instr i :: c => (x, i) :: placed x c

/-- The edges of code that continues the block `x`. -/
def edgesFrom (x : Option Label) (c : Code) : List (Option Label × Label) :=
  (c.placed x).flatMap fun p => p.2.targets.map (p.1, ·)

/-- The label of the block in which code ends. -/
def exit (x : Option Label) : Code → Option Label
  | [] => x
  | .label l :: c => exit (some l) c
  | .instr _ :: c => exit x c

section
variable {x : Option Label} {l : Label} {i : Instr} {c d : Code}

@[simp] theorem placed_nil : placed x [] = [] :=
  rfl

@[simp] theorem placed_label : placed x (.label l :: c) = placed (some l) c :=
  rfl

@[simp] theorem placed_instr : placed x (.instr i :: c) = (x, i) :: placed x c :=
  rfl

@[simp] theorem edgesFrom_nil : edgesFrom x [] = [] :=
  rfl

@[simp] theorem edgesFrom_label : edgesFrom x (.label l :: c) = edgesFrom (some l) c :=
  rfl

@[simp] theorem edgesFrom_instr : edgesFrom x (.instr i :: c) = i.targets.map (x, ·) ++ edgesFrom x c :=
  rfl

@[simp] theorem exit_nil : exit x [] = x :=
  rfl

@[simp] theorem exit_label : exit x (.label l :: c) = exit (some l) c :=
  rfl

@[simp] theorem exit_instr : exit x (.instr i :: c) = exit x c :=
  rfl

@[simp] theorem exit_append : exit x (c ++ d) = exit (exit x c) d := by
  induction c generalizing x with
  | nil => rfl
  | cons line c ih => cases line <;> exact ih

@[simp] theorem placed_append : placed x (c ++ d) = placed x c ++ placed (exit x c) d := by
  induction c generalizing x with
  | nil => rfl
  | cons line c ih =>
      cases line with
      | label l => exact ih
      | instr i => exact congrArg ((x, i) :: ·) ih

@[simp, grind =] theorem edgesFrom_append : edgesFrom x (c ++ d) = edgesFrom x c ++ edgesFrom (exit x c) d := by
  rw [edgesFrom, placed_append, List.flatMap_append]
  rfl

theorem placed_eq (x : Option Label) (c : Code) :
    c.placed x = (c.blocksFrom x).flatMap fun b => b.body.map (b.label, ·) := by
  induction c generalizing x with
  | nil => rfl
  | cons line c ih =>
      cases line with
      | label l => exact ih (some l)
      | instr i => exact congrArg ((x, i) :: ·) (ih x)

theorem mem_placed {p : Option Label × Instr} :
    p ∈ c.placed none ↔ ∃ b ∈ c.blocks, b.label = p.1 ∧ p.2 ∈ b.body := by
  rw [placed_eq, List.mem_flatMap]
  constructor
  · rintro ⟨b, hb, hp⟩
    obtain ⟨i, hi, rfl⟩ := List.mem_map.mp hp
    exact ⟨b, hb, rfl, hi⟩
  · rintro ⟨b, hb, hlabel, hi⟩
    exact ⟨b, hb, List.mem_map.mpr ⟨p.2, hi, by rw [hlabel]⟩⟩

theorem edges_eq (c : Code) : c.edges = c.edgesFrom none := by
  have hblock : Block.edges = fun b => (b.body.map (b.label, ·)).flatMap fun p => p.2.targets.map (p.1, ·) := by
    funext b
    rw [Block.edges, Block.targets, List.map_flatMap, List.flatMap_map]
  rw [edges, edgesFrom, placed_eq, List.flatMap_assoc, hblock]
  rfl

theorem mem_edges {e : Option Label × Label} :
    e ∈ c.edges ↔ ∃ b ∈ c.blocks, b.label = e.1 ∧ e.2 ∈ b.targets := by
  rw [edges, List.mem_flatMap]
  constructor
  · rintro ⟨b, hb, he⟩
    obtain ⟨l, hl, rfl⟩ := List.mem_map.mp he
    exact ⟨b, hb, rfl, hl⟩
  · rintro ⟨b, hb, hlabel, htarget⟩
    exact ⟨b, hb, List.mem_map.mpr ⟨e.2, htarget, by rw [hlabel]⟩⟩

end

end Code

end Demitasse
