import Demitasse.Ir.Type

/-! The written form of every kind of line. Instructions are indented by a tab; labels and what stands
outside of functions are not. Operands are given by their text. -/

namespace Demitasse

/-- Arithmetic instructions. -/
inductive ArithOp where
  | add | sub | mul
deriving DecidableEq

/-- The name of an arithmetic instruction. -/
def ArithOp.mnemonic : ArithOp → String
  | .add => "add"
  | .sub => "sub"
  | .mul => "mul"

/-- Comparisons of signed numbers. -/
inductive Comparison where
  | eq | lt | le | ge
deriving DecidableEq

/-- The name of a comparison. -/
def Comparison.mnemonic : Comparison → String
  | .eq => "eq"
  | .lt => "slt"
  | .le => "sle"
  | .ge => "sge"

namespace Written

/-- The line of an instruction. -/
def instruction (text : String) : String :=
  "\t" ++ text ++ "\n"

/-- Items with a comma and a blank between them. -/
def commas (items : List String) : String :=
  ", ".intercalate items

/-- An arithmetic instruction. -/
def arith (result : String) (op : ArithOp) (ty : IrTy) (lhs rhs : String) : String :=
  instruction (result ++ " = " ++ op.mnemonic ++ " " ++ ty.text ++ " " ++ lhs ++ ", " ++ rhs)

/-- A comparison, whose result is a single bit. -/
def compare (result : String) (cmp : Comparison) (ty : IrTy) (lhs rhs : String) : String :=
  instruction (result ++ " = icmp " ++ cmp.mnemonic ++ " " ++ ty.text ++ " " ++ lhs ++ ", " ++ rhs)

/-- Room for a value on the stack. -/
def alloca (result : String) (ty : IrTy) : String :=
  instruction (result ++ " = alloca " ++ ty.text)

/-- Reads the value at an address. -/
def load (result : String) (ty : IrTy) (ptr : String) : String :=
  instruction (result ++ " = load " ++ ty.text ++ ", " ++ ty.text ++ "* " ++ ptr)

/-- Puts a value at an address. -/
def store (ty : IrTy) (value ptr : String) : String :=
  instruction ("store " ++ ty.text ++ " " ++ value ++ ", " ++ ty.text ++ "* " ++ ptr)

/-- Goes on at a label. -/
def branch (label : String) : String :=
  instruction ("br label %" ++ label)

/-- Goes on at one of two labels. -/
def branchIf (cond ifTrue ifFalse : String) : String :=
  instruction ("br i1 " ++ cond ++ ", label %" ++ ifTrue ++ ", label %" ++ ifFalse)

/-- The line that a label stands on. -/
def label (name : String) : String :=
  name ++ ":\n"

/-- The address of a part of what `ptr` points to; every index is a number of 32 bits. -/
def elementPtr (result : String) (elem : IrTy) (ptr : String) (indices : List String) : String :=
  instruction (result ++ " = getelementptr " ++ elem.text ++ ", " ++ elem.text ++ "* " ++ ptr ++ ", "
    ++ commas (indices.map ("i32 " ++ ·)))

/-- The same bits as a value of another type. -/
def bitcast (result source value target : String) : String :=
  instruction (result ++ " = bitcast " ++ source ++ " " ++ value ++ " to " ++ target)

/-- A call. What a function without a result returns is not kept. -/
def call (result : Option String) (ret callee : String) (args : List (IrTy × String)) : String :=
  let call := "call " ++ ret ++ " " ++ callee ++ "("
    ++ commas (args.map fun (ty, value) => ty.text ++ " " ++ value) ++ ")"
  match result with
  | some result => if ret = "void" then instruction call else instruction (result ++ " = " ++ call)
  | none => instruction call

/-- The value that belongs to the label through which the block was entered. -/
def phi (result : String) (ty : IrTy) (incoming : List (String × String)) : String :=
  instruction (result ++ " = phi " ++ ty.text ++ " "
    ++ commas (incoming.map fun (value, label) => "[" ++ value ++ ", %" ++ label ++ "]"))

/-- Returns a value. -/
def ret (ty : IrTy) (value : String) : String :=
  instruction ("ret " ++ ty.text ++ " " ++ value)

/-- Returns without a value. -/
def retVoid : String :=
  instruction "ret void"

/-- A global table of methods. -/
def methodTable (name : String) (entries : List String) : String :=
  name ++ " = global " ++ (IrTy.array entries.length .address).text ++ " [" ++ commas entries ++ "]\n"

/-- A digit of a byte in hexadecimal. -/
def hexDigit (n : Nat) : Char :=
  Nat.digitChar n

/-- A byte of a string constant: printable characters other than quote and backslash stand for
themselves, and others are written by two digits. -/
def stringByte (byte : UInt8) : String :=
  let n := byte.toNat
  if 0x20 ≤ n && n ≤ 0x7e && n ≠ 0x22 && n ≠ 0x5c then String.singleton (Char.ofNat n)
  else String.ofList ['\\', hexDigit (n / 16), hexDigit (n % 16)]

/-- A global string with a zero byte at its end. -/
def stringConstant (name text : String) : String :=
  name ++ " = constant " ++ (IrTy.array (text.utf8ByteSize + 1) .i8).text ++ " c\""
    ++ String.join (text.toUTF8.data.toList.map stringByte) ++ "\\00\"\n"

/-- A function that is defined elsewhere. -/
def declaration (ret : IrTy) (name params : String) : String :=
  "declare " ++ ret.text ++ " " ++ name ++ "(" ++ params ++ ")\n"

/-- The first line of a function. -/
def definition (s : FnSig) : String :=
  "define " ++ s.ret.text ++ " " ++ s.name ++ "("
    ++ commas (s.params.map fun (ty, name) => ty.text ++ " %" ++ name) ++ ") \x7b\n"

/-- The last line of a function. -/
def definitionEnd : String :=
  "\x7d\n"

end Written

end Demitasse
