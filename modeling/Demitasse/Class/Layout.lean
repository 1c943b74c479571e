import Demitasse.Class.Table
import Demitasse.Program.Basic

/-! The layout of objects. A class lists its fields, which fixes their offsets, and its methods, which
fixes their slots. What is inherited comes first, and an overriding method keeps the slot of the one
that it overrides, so offsets and slots agree between a class and its subclasses. -/

namespace Demitasse

/-- The number of bytes in front of the first field, which hold the method table's address. -/
def headerSize : Nat :=
  8

/-- The number of bytes of a field. -/
def Ty.size : Ty → Nat
  | .boolean => 1
  | .int => 4
  | .intArray | .object _ => 8

/-- What a slot says about its method. -/
structure MethodSig where
  /-- class and method, joined by a dot -/
  qualifiedName : String
  ret : Ty
  formals : List (String × Ty)
deriving DecidableEq

/-- The types of the parameters. -/
def MethodSig.formalTypes (s : MethodSig) : List Ty :=
  s.formals.map (·.2)

/-- The signature of a method that is declared in the given class. -/
def MethodDecl.signature (m : MethodDecl) (className : String) : MethodSig :=
  ⟨className ++ "." ++ m.name, m.returnType, m.formals.map fun f => (f.name, f.ty)⟩

/-- Fields and methods of the objects of a class. -/
structure Layout where
  className : String
  superName : Option String
  fields : Table Ty
  methods : Table MethodSig
deriving DecidableEq

namespace Layout

/-- The layout of a class that has nothing. -/
def empty (className : String) : Layout :=
  ⟨className, none, .empty, .empty⟩

/-- The layout of a class that has what its superclass has. -/
def inherit (className : String) (parent : Layout) : Layout :=
  { parent with className, superName := some parent.className }

/-- Adds a field, or gives another type to the one of that name. -/
def addField (l : Layout) (name : String) (ty : Ty) : Layout :=
  { l with fields := l.fields.insert name ty }

/-- Adds a slot for a method, or puts the method into the slot of the one of that name. -/
def addMethod (l : Layout) (name : String) (signature : MethodSig) : Layout :=
  { l with methods := l.methods.insert name signature }

/-- The layout of a class whose superclass has the given one. -/
def ofClass (c : ClassDecl) (parent : Option Layout) : Layout :=
  let inherited := match parent with
    | some parent => inherit c.name parent
    | none => empty c.name
  let withFields := c.fields.foldl (fun l f => l.addField f.name f.ty) inherited
  c.methods.foldl (fun l m => l.addMethod m.name (m.signature c.name)) withFields

/-- The type of a field. -/
def fieldType? (l : Layout) (name : String) : Option Ty :=
  l.fields.find? name

/-- The number of bytes of fields in a row. -/
def extent : List Ty → Nat
  | [] => 0
  | ty :: rest => ty.size + extent rest

/-- The bytes between the start of an object and a field. -/
def fieldOffset? (l : Layout) (name : String) : Option Nat :=
  (l.fields.index? name).map fun i => headerSize + extent (l.fields.values.take i)

/-- The number of bytes of an object. -/
def size (l : Layout) : Nat :=
  headerSize + extent l.fields.values

/-- The method that a call by the given name reaches. -/
def method? (l : Layout) (name : String) : Option MethodSig :=
  l.methods.find? name

/-- The slot of a method. -/
def slot? (l : Layout) (name : String) : Option Nat :=
  l.methods.index? name

/-- The number of slots. -/
def slotCount (l : Layout) : Nat :=
  l.methods.size

/-- Whether two layouts say the same, whatever the order of their fields and slots. -/
def agrees (l m : Layout) : Bool :=
  l.className = m.className && l.superName = m.superName && l.fields.agrees m.fields &&
    l.methods.agrees m.methods

end Layout

end Demitasse
