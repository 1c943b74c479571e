import Demitasse.Ir.Code
import Demitasse.Lower.Fault
import Demitasse.Scope.Basic

/-! The names inside one function. Intermediate values and labels are numbered in the order in which
they are asked for; the address of a variable is named after the variable and belongs to its
declaration. -/

namespace Demitasse

/-- The names that a function has used so far. -/
structure Names where
  nextTemp : Nat
  nextLabel : Nat
  /-- the address of every declared variable that was met -/
  slots : List (NodeId × Reg)
deriving DecidableEq

/-- Where the value of a variable is kept. -/
inductive Place where
  /-- on the stack, at the address in a register -/
  | stack (slot : Reg) (ty : Ty)
  /-- in the object that the method belongs to -/
  | field (name : String) (ty : Ty)
deriving DecidableEq

namespace Names

/-- The names of a function without code. -/
def fresh : Names :=
  ⟨0, 0, []⟩

/-- A new register for an intermediate value. -/
def newTemp (names : Names) : Reg × Names :=
  (.temp names.nextTemp, { names with nextTemp := names.nextTemp + 1 })

/-- A new label; all stems share one numbering. -/
def newLabel (names : Names) (stem : String) : Label × Names :=
  (⟨stem, names.nextLabel⟩, { names with nextLabel := names.nextLabel + 1 })

/-- The address of the variable that `decl` declares, named `name` when it is first asked for. -/
def slot (names : Names) (name : String) (decl : NodeId) : Reg × Names :=
  match names.slots.lookup decl with
  | some r => (r, names)
  | none => (.named name, { names with slots := (decl, .named name) :: names.slots })

/-- The place of the variable of a name that is visible at a node. -/
def place (names : Names) (t : ScopeTable) (name : String) (node : NodeId) :
    Except LoweringFault (Place × Names) :=
  match t.resolve? node name with
  | none => .error (.unresolved name node)
  | some b =>
    match b.storage with
    | .field => .ok (.field name b.ty, names)
    | .param | .local =>
      let (r, names) := names.slot name b.decl
      .ok (.stack r b.ty, names)

end Names

/-- The global name of a class's method table. -/
def methodTableName (className : String) : String :=
  "@." ++ className ++ "_vtable"

/-- Lowering one function, which uses up names and may fail. -/
abbrev Lower := StateT Names (Except LoweringFault)

namespace Lower

/-- A new register for an intermediate value. -/
def newTemp : Lower Reg :=
  modifyGet Names.newTemp

/-- A new label. -/
def newLabel (stem : String) : Lower Label :=
  modifyGet (·.newLabel stem)

/-- The address of a declared variable. -/
def slot (name : String) (decl : NodeId) : Lower Reg :=
  modifyGet (·.slot name decl)

/-- The place of a visible variable. -/
def place (t : ScopeTable) (name : String) (node : NodeId) : Lower Place :=
  fun names => names.place t name node

end Lower

end Demitasse
