import Demitasse.Class.Forest
import Demitasse.Class.Table

/-! The meaning of programs. Numbers have 32 bits and wrap around. Objects know their class, and a call reaches
the nearest method from that class upwards; fields start with zero, false or null, and local variables have no
value until they are assigned. Names mean what the program says where they stand: parameters and local variables
first, then the fields of the class and its ancestors.

A run has fuel for a number of nested evaluations. It may end because the fuel does, because of one of three
traps, or because of a mistake that a sound program does not make. Every value of an expression is recorded
with the heap in which it was found. -/

namespace Demitasse

/-- What variables, fields and expressions hold. -/
inductive Datum where
  | int (n : BitVec 32)
  | bool (b : Bool)
  | null
  /-- the place of an object or an array in the heap -/
  | ref (loc : Nat)
deriving DecidableEq

/-- The value of a field that was not assigned. -/
def Ty.initial : Ty → Datum
  | .int => .int 0
  | .boolean => .bool false
  | .intArray | .object _ => .null

/-- What stands at a place of the heap. -/
inductive Cell where
  | object (className : String) (fields : Table Datum)
  | array (elements : List (BitVec 32))
deriving DecidableEq

/-- The type of what stands at a place of the heap. -/
def Cell.ty : Cell → Ty
  | .object className _ => .object className
  | .array _ => .intArray

/-- Cells by their places. -/
abbrev Heap := List Cell

/-- The type that a datum has in a heap; null has none of its own. -/
def Heap.tyOf? (h : Heap) : Datum → Option Ty
  | .int _ => some .int
  | .bool _ => some .boolean
  | .null => none
  | .ref loc => h[loc]?.map Cell.ty

/-- Reasons to stop that depend on the values a sound program computes. -/
inductive Trap where
  | nullDereference | outOfBounds | negativeSize
deriving DecidableEq

/-- Reasons to stop that no sound program has. -/
inductive Mistake where
  | unresolved (name : String)
  | unassigned (name : String)
  | unknownClass (className : String)
  | noMethod (className method : String)
  | argumentCount (method : String)
  | noReceiver
  /-- an operand is a number, a truth value, an array or an object where another of these is wanted -/
  | wrongKind
deriving DecidableEq

/-- Why a run ends before its end. -/
inductive Stop where
  | outOfFuel
  | trap (t : Trap)
  | mistake (m : Mistake)
deriving DecidableEq

/-- The value that an expression had in a method of a class, or in the main method. -/
structure Observation where
  className : Option String
  expr : Expr
  datum : Datum
  heap : Heap

/-- What a run changes. -/
structure Memory where
  heap : Heap
  /-- parameters and local variables of the running method, the latter without a value at first -/
  vars : Table (Option Datum)
  /-- the numbers that were printed, in order -/
  output : List (BitVec 32)
  /-- the values that expressions had, the latest first -/
  history : List Observation

/-- The memory at the start of a program. -/
def Memory.initial : Memory :=
  ⟨[], .empty, [], []⟩

/-- The class that declares the running method and the object it runs on; the main method has neither. -/
structure Frame where
  className : Option String
  receiver : Option Nat

/-- The frame of the main method. -/
def Frame.main : Frame :=
  ⟨none, none⟩

namespace Program

variable (p : Program)

/-- The classes of a program. -/
def forest : Forest :=
  ⟨p.classes⟩

/-- Whether a name is that of a field of a class or one of its ancestors. -/
def hasField (className name : String) : Bool :=
  (p.forest.lineage className).any fun c => c.fields.any fun f => f.name = name

/-- A new object of a declared class, with its ancestors' fields first. -/
def instance? (className : String) : Option Cell :=
  if p.forest.contains className then
    some (.object className ⟨(p.forest.lineage className).reverse.flatMap fun c =>
      c.fields.map fun f => (f.name, f.ty.initial)⟩)
  else none

/-- The nearest method of a name from a class upwards, with the class that declares it. -/
def implementation? (className method : String) : Option (String × MethodDecl) :=
  (p.forest.lineage className).findSome? fun c => (c.method? method).map fun m => (c.name, m)

end Program

/-- The variables of a method that is called with some arguments. -/
def MethodDecl.vars (m : MethodDecl) (args : List Datum) : Table (Option Datum) :=
  ⟨(m.formals.zip args).map (fun (f, v) => (f.name, some v)) ++ m.locals.map fun l => (l.name, none)⟩

/-- Computing with a memory. -/
abbrev Exec := EStateM Stop Memory

namespace Exec

/-- Stops because of a mistake. -/
def wrong {α : Type} (m : Mistake) : Exec α :=
  throw (.mistake m)

/-- Stops because of a trap. -/
def trap {α : Type} (t : Trap) : Exec α :=
  throw (.trap t)

/-- A datum as a number. -/
def asInt : Datum → Exec (BitVec 32)
  | .int n => return n
  | _ => wrong .wrongKind

/-- A datum as a truth value. -/
def asBool : Datum → Exec Bool
  | .bool b => return b
  | _ => wrong .wrongKind

/-- The cell that a datum refers to. -/
def cell : Datum → Exec (Nat × Cell)
  | .ref loc => do
    match (← get).heap[loc]? with
    | some c => return (loc, c)
    | none => wrong .wrongKind
  | .null => trap .nullDereference
  | _ => wrong .wrongKind

/-- The array that a datum refers to. -/
def array (v : Datum) : Exec (Nat × List (BitVec 32)) := do
  match ← cell v with
  | (loc, .array elements) => return (loc, elements)
  | _ => wrong .wrongKind

/-- The place of an index in an array. -/
def position (elements : List (BitVec 32)) (index : BitVec 32) : Exec Nat :=
  if index.toInt < 0 ∨ elements.length ≤ index.toInt then trap .outOfBounds else return index.toNat

/-- Puts a cell at a new place of the heap. -/
def alloc (c : Cell) : Exec Datum :=
  modifyGet fun s => (.ref s.heap.length, { s with heap := s.heap ++ [c] })

/-- Changes the cell at a place of the heap. -/
def update (loc : Nat) (c : Cell) : Exec Unit :=
  modify fun s => { s with heap := s.heap.set loc c }

/-- The object that holds the field of a name, where the field is known, and the value of the field. -/
def holder (p : Program) (F : Frame) (name : String) : Exec (Nat × String × Table Datum × Datum) := do
  match F.className, F.receiver with
  | some className, some loc =>
    if p.hasField className name then
      match (← get).heap[loc]? with
      | some (.object D fields) =>
        match fields.find? name with
        | some v => return (loc, D, fields, v)
        | none => wrong (.unresolved name)
      | _ => wrong .wrongKind
    else wrong (.unresolved name)
  | _, _ => wrong (.unresolved name)

/-- The value of a variable. -/
def read (p : Program) (F : Frame) (name : String) : Exec Datum := do
  match (← get).vars.find? name with
  | some (some v) => return v
  | some none => wrong (.unassigned name)
  | none =>
    let (_, _, _, v) ← holder p F name
    return v

/-- Gives a value to a variable. -/
def write (p : Program) (F : Frame) (name : String) (v : Datum) : Exec Unit := do
  match (← get).vars.find? name with
  | some _ => modify fun s => { s with vars := s.vars.insert name (some v) }
  | none =>
    let (loc, D, fields, _) ← holder p F name
    update loc (.object D (fields.insert name v))

/-- Prints a number. -/
def print (n : BitVec 32) : Exec Unit :=
  modify fun s => { s with output := s.output ++ [n] }

/-- Records the value of an expression. -/
def observe (F : Frame) (e : Expr) (v : Datum) : Exec Unit :=
  modify fun s => { s with history := ⟨F.className, e, v, s.heap⟩ :: s.history }

end Exec

/-- What an operator computes from its operands. -/
def BinOp.compute : BinOp → Datum → Datum → Exec Datum
  | .and, .bool b, .bool c => return .bool (b && c)
  | .less, .int m, .int n => return .bool (m.slt n)
  | .add, .int m, .int n => return .int (m + n)
  | .sub, .int m, .int n => return .int (m - n)
  | .mul, .int m, .int n => return .int (m * n)
  | _, _, _ => Exec.wrong .wrongKind

/-- The meaning of expressions and statements. -/
structure Evaluator where
  eval : Frame → Expr → Exec Datum
  exec : Frame → Stmt → Exec Unit

namespace Evaluator

open Exec

variable (I : Evaluator) (p : Program)

/-- Runs a method, which has variables of its own. -/
def call (F : Frame) (m : MethodDecl) (args : List Datum) : Exec Datum := do
  let caller ← get
  set { caller with vars := m.vars args }
  m.body.forM (I.exec F)
  let result ← I.eval F m.result
  modify fun s => { s with vars := caller.vars }
  return result

/-- Calls the method that an object has under a name. -/
def dispatch (owner : Datum) (method : String) (args : List Datum) : Exec Datum := do
  match ← cell owner with
  | (loc, .object D _) =>
    match p.implementation? D method with
    | some (C, m) =>
      if m.formals.length = args.length then I.call ⟨some C, some loc⟩ m args
      else wrong (.argumentCount method)
    | none => wrong (.noMethod D method)
  | _ => wrong .wrongKind

/-- The value of an expression, if the evaluator gives those of its parts. -/
def evalForm (F : Frame) : Expr → Exec Datum
  | .binary _ op left right => do
    let v ← I.eval F left
    -- a false first operand is the value of a conjunction
    if op = .and ∧ v = .bool false then return v
    op.compute v (← I.eval F right)
  | .element _ array index => do
    let owner ← I.eval F array
    let i ← asInt (← I.eval F index)
    let (_, elements) ← Exec.array owner
    let k ← position elements i
    return .int (elements.getD k 0)
  | .length _ array => do
    let (_, elements) ← Exec.array (← I.eval F array)
    return .int (BitVec.ofNat 32 elements.length)
  | .call _ owner method args => do
    let object ← I.eval F owner
    let values ← args.mapM (I.eval F)
    I.dispatch p object method values
  | .int _ value => return .int (BitVec.ofNat 32 value)
  | .bool _ value => return .bool value
  | .var _ name => read p F name
  | .this _ =>
    match F.receiver with
    | some loc => return .ref loc
    | none => wrong .noReceiver
  | .newArray _ size => do
    let n ← asInt (← I.eval F size)
    if n.toInt < 0 then trap .negativeSize else alloc (.array (List.replicate n.toNat 0))
  | .newObject _ className =>
    match p.instance? className with
    | some c => alloc c
    | none => wrong (.unknownClass className)
  | .not _ operand => do
    return .bool (!(← asBool (← I.eval F operand)))

/-- The effect of a statement, if the evaluator gives those of its parts. -/
def execForm (F : Frame) : Stmt → Exec Unit
  | .block _ body => body.forM (I.exec F)
  | .ifElse _ cond thenBranch elseBranch => do
    if ← asBool (← I.eval F cond) then I.exec F thenBranch else I.exec F elseBranch
  | .loop node cond body => do
    if ← asBool (← I.eval F cond) then
      I.exec F body
      I.exec F (.loop node cond body)
  | .print _ arg => do
    print (← asInt (← I.eval F arg))
  | .assign _ target value => do
    write p F target (← I.eval F value)
  | .assignElement _ target index value => do
    let owner ← read p F target
    let i ← asInt (← I.eval F index)
    let n ← asInt (← I.eval F value)
    let (loc, elements) ← Exec.array owner
    let k ← position elements i
    update loc (.array (elements.set k n))

/-- Evaluates one level more. -/
def deeper : Evaluator where
  eval F e := do
    let v ← I.evalForm p F e
    observe F e v
    return v
  exec F s := I.execForm p F s

/-- Evaluates up to `fuel` levels. -/
def withFuel (p : Program) : (fuel : Nat) → Evaluator
  | 0 => ⟨fun _ _ => throw .outOfFuel, fun _ _ => throw .outOfFuel⟩
  | fuel + 1 => (withFuel p fuel).deeper p

end Evaluator

/-- Runs the main statement of a program. -/
def Program.run (p : Program) (fuel : Nat) : EStateM.Result Stop Memory Unit :=
  ((Evaluator.withFuel p fuel).exec .main p.main.body).run .initial

/-- What a program prints, if it comes to its end. -/
def Program.output? (p : Program) (fuel : Nat) : Option (List (BitVec 32)) :=
  match p.run fuel with
  | .ok _ s => some s.output
  | .error _ _ => none

/-- A computation does what another one does, unless it runs out of fuel. -/
def Exec.Below {α : Type} (x y : Exec α) : Prop :=
  ∀ s, (∃ s', x.run s = .error .outOfFuel s') ∨ x.run s = y.run s

namespace Exec

variable {α β : Type}

theorem Below.refl (x : Exec α) : x.Below x :=
  fun _ => .inr rfl

theorem below_outOfFuel (y : Exec α) : Below (throw .outOfFuel) y :=
  fun s => .inl ⟨s, rfl⟩

theorem Below.bind {x y : Exec α} {f g : α → Exec β} (hx : x.Below y) (hf : ∀ v, (f v).Below (g v)) :
    (x >>= f).Below (y >>= g) := by
  intro s
  rw [EStateM.run_bind, EStateM.run_bind]
  rcases hx s with ⟨s', hx⟩ | hx
  · rw [hx]
    exact .inl ⟨s', rfl⟩
  · rw [hx]
    cases y.run s with
    | ok v s' => exact hf v s'
    | error stop s' => exact .inr rfl

theorem below_mapM {f g : α → Exec β} (hf : ∀ v, (f v).Below (g v)) (l : List α) :
    (l.mapM f).Below (l.mapM g) := by
  induction l with
  | nil => exact .refl _
  | cons a l ih =>
      rw [List.mapM_cons, List.mapM_cons]
      exact (hf a).bind fun b => ih.bind fun bs => .refl _

theorem below_forM {f g : α → Exec Unit} (hf : ∀ v, (f v).Below (g v)) (l : List α) :
    (l.forM f).Below (l.forM g) := by
  induction l with
  | nil => exact .refl _
  | cons a l ih => exact (hf a).bind fun _ => ih

end Exec

/-- An evaluator does what another one does, unless it runs out of fuel. -/
structure Evaluator.Below (I J : Evaluator) : Prop where
  eval : ∀ F e, (I.eval F e).Below (J.eval F e)
  exec : ∀ F st, (I.exec F st).Below (J.exec F st)

namespace Evaluator

variable {I J : Evaluator} {p : Program}

theorem Below.call (h : I.Below J) (F : Frame) (m : MethodDecl) (args : List Datum) :
    (I.call F m args).Below (J.call F m args) := by
  refine (Exec.Below.refl _).bind fun caller => (Exec.Below.refl _).bind fun _ => ?_
  exact (Exec.below_forM (h.exec F) m.body).bind fun _ => (h.eval F m.result).bind fun _ => .refl _

theorem Below.dispatch (h : I.Below J) (owner : Datum) (method : String) (args : List Datum) :
    (I.dispatch p owner method args).Below (J.dispatch p owner method args) := by
  refine (Exec.Below.refl _).bind fun r => ?_
  split
  · split
    · split
      · exact h.call _ _ _
      · exact .refl _
    · exact .refl _
  · exact .refl _

theorem Below.evalForm (h : I.Below J) (F : Frame) (e : Expr) : (I.evalForm p F e).Below (J.evalForm p F e) := by
  cases e with
  | binary node op left right =>
      refine (h.eval F left).bind fun v => ?_
      split
      · exact .refl _
      · exact (h.eval F right).bind fun w => .refl _
  | element node array index =>
      exact (h.eval F array).bind fun owner => (h.eval F index).bind fun i => .refl _
  | length node array => exact (h.eval F array).bind fun owner => .refl _
  | call node owner method args =>
      refine (h.eval F owner).bind fun object => ?_
      exact (Exec.below_mapM (h.eval F) args).bind fun values => h.dispatch object method values
  | newArray node size => exact (h.eval F size).bind fun n => .refl _
  | not node operand => exact (h.eval F operand).bind fun v => .refl _
  | _ => exact .refl _

theorem Below.execForm (h : I.Below J) (F : Frame) (st : Stmt) :
    (I.execForm p F st).Below (J.execForm p F st) := by
  cases st with
  | block node body => exact Exec.below_forM (h.exec F) body
  | ifElse node cond thenBranch elseBranch =>
      refine (h.eval F cond).bind fun v => (Exec.Below.refl _).bind fun b => ?_
      split
      · exact h.exec F thenBranch
      · exact h.exec F elseBranch
  | loop node cond body =>
      refine (h.eval F cond).bind fun v => (Exec.Below.refl _).bind fun b => ?_
      split
      · exact (h.exec F body).bind fun _ => h.exec F _
      · exact .refl _
  | print node arg => exact (h.eval F arg).bind fun v => .refl _
  | assign node target value => exact (h.eval F value).bind fun v => .refl _
  | assignElement node target index value =>
      refine (Exec.Below.refl _).bind fun owner => (h.eval F index).bind fun i => ?_
      exact (Exec.Below.refl _).bind fun _ => (h.eval F value).bind fun n => .refl _

theorem Below.deeper (h : I.Below J) : (I.deeper p).Below (J.deeper p) :=
  ⟨fun F e => (h.evalForm F e).bind fun _ => .refl _, h.execForm⟩

/-- What is found without running out of fuel is found with more fuel too. -/
theorem below_withFuel (p : Program) {fuel more : Nat} (h : fuel ≤ more) :
    (withFuel p fuel).Below (withFuel p more) := by
  induction fuel generalizing more with
  | zero => exact ⟨fun _ _ => Exec.below_outOfFuel _, fun _ _ => Exec.below_outOfFuel _⟩
  | succ fuel ih =>
      cases more with
      | zero => exact absurd h (Nat.not_succ_le_zero fuel)
      | succ more => exact (ih (Nat.le_of_succ_le_succ h)).deeper

end Evaluator

end Demitasse
