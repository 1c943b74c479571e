import Demitasse.Class.Layout

/-! Types of the intermediate language. Objects are addresses of bytes, arrays are addresses of their
length. -/

namespace Demitasse

/-- Types of registers and of memory. -/
inductive IrTy where
  | i1 | i8 | i32 | void
  | ptr (elem : IrTy)
  | array (len : Nat) (elem : IrTy)
deriving DecidableEq

namespace IrTy

/-- A type as it is written. -/
def text : IrTy → String
  | .i1 => "i1"
  | .i8 => "i8"
  | .i32 => "i32"
  | .void => "void"
  | .ptr elem => elem.text ++ "*"
  | .array len elem => "[" ++ toString len ++ " x " ++ elem.text ++ "]"

/-- The type of objects, and of methods of which nothing is known. -/
def address : IrTy :=
  .ptr .i8

/-- The type of a method table's address. -/
def tableAddress : IrTy :=
  .ptr address

end IrTy

/-- The type of the registers that hold the values of a type. -/
def Ty.ir : Ty → IrTy
  | .int => .i32
  | .boolean => .i1
  | .intArray => .ptr .i32
  | .object _ => .address

/-- Types of functions. -/
@[ext]
structure FnTy where
  ret : IrTy
  params : List IrTy
deriving DecidableEq

namespace FnTy

/-- The result type and the types of the parameters. -/
def text (ty : FnTy) : String :=
  ty.ret.text ++ " (" ++ ", ".intercalate (ty.params.map IrTy.text) ++ ")"

/-- The type of the address of such a function. -/
def pointerText (ty : FnTy) : String :=
  ty.text ++ "*"

end FnTy

/-- A function as its callers see it. -/
structure FnSig where
  /-- the global name, with its mark -/
  name : String
  ret : IrTy
  /-- types and names of the parameters, without the mark of registers -/
  params : List (IrTy × String)
deriving DecidableEq

namespace FnSig

/-- A method takes its owner first, and its parameters under their names behind a dot. -/
def ofMethod (s : MethodSig) : FnSig where
  name := "@" ++ s.qualifiedName
  ret := s.ret.ir
  params := (.address, "this") :: s.formals.map fun (name, ty) => (ty.ir, "." ++ name)

/-- The function's type. -/
def ty (s : FnSig) : FnTy :=
  ⟨s.ret, s.params.map (·.1)⟩

/-- The function's type as it is written. -/
def short (s : FnSig) : String :=
  s.ty.text

/-- The type of the function's address. -/
def pointerText (s : FnSig) : String :=
  s.ty.pointerText

/-- The function's address as a method table holds it. -/
def tableEntry (s : FnSig) : String :=
  "i8* bitcast (" ++ s.pointerText ++ " " ++ s.name ++ " to i8*)"

end FnSig

end Demitasse
