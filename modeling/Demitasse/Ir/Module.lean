import Demitasse.Ir.Code

/-! Whole modules of the intermediate language. A module starts with the functions that it takes from
outside, the texts that it prints and two functions of its own: one prints a number, the other reports
an access out of bounds and ends the run. -/

namespace Demitasse

/-- A function that is defined elsewhere. -/
structure External where
  ret : IrTy
  name : String
  params : List IrTy
  isVariadic : Bool
deriving DecidableEq

/-- The declaration of an external function. -/
def External.render (e : External) : String :=
  Written.declaration e.ret e.name <|
    if e.isVariadic then variadicParams e.params else Written.commas (e.params.map IrTy.text)

/-- Allocates a number of cells of a given size, filled with zeros. -/
def calloc : External :=
  ⟨.address, "@calloc", [.i32, .i32], false⟩

/-- Prints by a format. -/
def printf : External :=
  ⟨.i32, "@printf", [.address], true⟩

/-- Ends the run. -/
def exit : External :=
  ⟨.void, "@exit", [.i32], false⟩

/-- A global text. -/
structure StringConstant where
  name : String
  text : String
deriving DecidableEq

/-- The type of a text with the zero byte at its end. -/
def StringConstant.ty (s : StringConstant) : IrTy :=
  .array (s.text.utf8ByteSize + 1) .i8

/-- The definition of a text. -/
def StringConstant.render (s : StringConstant) : String :=
  Written.stringConstant s.name s.text

/-- The format of a printed number. -/
def numberFormat : StringConstant :=
  ⟨"@_cint", "%d\n"⟩

/-- The report of an access out of bounds. -/
def outOfBoundsText : StringConstant :=
  ⟨"@_cOOB", "Out of bounds\n"⟩

/-- Prints a text, with the arguments that it asks for as a format. -/
def printText (text : StringConstant) (args : List (IrTy × Operand)) : Code :=
  [.instr (.bitcast (.named "_str") (.ptr text.ty) (.global text.name) .address),
    .instr (.call none (.variadic printf.ret printf.params) (.global printf.name)
      ((.address, .reg (.named "_str")) :: args))]

/-- Prints a number. -/
def printInt : IrFunction where
  sig := ⟨"@print_int", .void, [(.i32, "i")]⟩
  code := printText numberFormat [(.i32, .reg (.named "i"))] ++ [.instr .retVoid]

/-- Reports an access out of bounds and ends the run. -/
def throwOutOfBounds : IrFunction where
  sig := ⟨"@throw_oob", .void, []⟩
  code := printText outOfBoundsText []
    ++ [.instr (.call none (.returns exit.ret) (.global exit.name) [(.i32, .const 1)]),
      .instr .retVoid]

/-- The global table of a class's methods, in the order of their slots. -/
structure MethodTable where
  name : String
  entries : List FnSig
deriving DecidableEq

/-- The definition of a method table. -/
def MethodTable.render (t : MethodTable) : String :=
  Written.methodTable t.name (t.entries.map FnSig.tableEntry)

/-- What every module starts with. -/
structure Preamble where
  externals : List External
  strings : List StringConstant
  helpers : List IrFunction
deriving DecidableEq

/-- The preamble as it is written, with an empty line between its parts. -/
def Preamble.render (p : Preamble) : String :=
  String.join (p.externals.map External.render) ++ "\n"
    ++ String.join (p.strings.map StringConstant.render) ++ "\n"
    ++ "\n".intercalate (p.helpers.map IrFunction.render)

/-- The preamble of compiled programs. -/
def preamble : Preamble where
  externals := [calloc, printf, exit]
  strings := [numberFormat, outOfBoundsText]
  helpers := [printInt, throwOutOfBounds]

/-- A module. -/
structure IrModule where
  preamble : Preamble
  tables : List MethodTable
  functions : List IrFunction
deriving DecidableEq

/-- A module as it is written. -/
def IrModule.render (m : IrModule) : String :=
  m.preamble.render ++ "\n"
    ++ String.join (m.tables.map MethodTable.render) ++ "\n"
    ++ String.join (m.functions.map fun f => f.render ++ "\n")

end Demitasse
