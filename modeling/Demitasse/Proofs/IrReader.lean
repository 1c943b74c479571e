import Demitasse.Proofs.Operands

/-! Reading the intermediate language. A line is cut into words and marks; its mnemonic says which instruction it is,
and the types, the operands and the targets stand where the language has them for that instruction. A type that the
language writes twice has to be the same both times. A module is read line by line. Nothing here looks at how lines are
written, so what is read is what the text says. -/

namespace Demitasse

/-- A piece of a line. Names keep the marks of registers and globals. -/
inductive IrToken where
  | word (text : String)
  | mark (c : Char)
deriving DecidableEq

/-- Characters of mnemonics, types, numbers and names. -/
def isIrWordChar (c : Char) : Bool :=
  c.isAlphanum || ['_', '.', '$', '-', '%', '@'].contains c

/-- Characters of a word in a row, or any other character on its own. Blanks are nothing. -/
def IrToken.ofRun? : List Char → Option IrToken
  | [] => none
  | c :: run =>
    if isIrWordChar c then some (.word (String.ofList (c :: run)))
    else if c = ' ' ∨ c = '\t' then none else some (.mark c)

/-- The words and marks of a line. -/
def irTokens (line : List Char) : List IrToken :=
  (line.splitBy fun c d => isIrWordChar c && isIrWordChar d).filterMap IrToken.ofRun?

/-- The words and marks of the lines of a text. -/
def lineTokens (text : List Char) : List (List IrToken) :=
  (text.splitOn '\n').map irTokens

namespace IrReader

def readNumber (word : String) : Option Nat :=
  if word ≠ "" ∧ word.toList.all Char.isDigit then some (Nat.ofDigitChars 10 word.toList 0) else none

/-- A register. It is a temporary if it is written like one. -/
def readReg (word : String) : Option Reg :=
  match word.toList with
  | '%' :: name =>
    let n := Nat.ofDigitChars 10 (name.drop 1) 0
    some (if name = '_' :: (toString n).toList then .temp n else .named (String.ofList name))
  | _ => none

/-- A label, whose number stands behind the last dot. -/
def readLabel (word : String) : Option Label :=
  let pieces := word.toList.splitOn '.'
  let digits := pieces.getLastD []
  let n := Nat.ofDigitChars 10 digits 0
  if 2 ≤ pieces.length ∧ digits = (toString n).toList then
    some ⟨String.ofList (['.'].intercalate pieces.dropLast), n⟩
  else none

/-- A label behind the mark that it has as a target. -/
def readTarget (word : String) : Option Label :=
  match word.toList with
  | '%' :: label => readLabel (String.ofList label)
  | _ => none

def readOperand (word : String) : Option Operand :=
  match word.toList with
  | '%' :: _ => (readReg word).map .reg
  | '@' :: _ => some (.global word)
  | _ => (readNumber word).map .const

def baseType? : String → Option IrTy
  | "i1" => some .i1
  | "i8" => some .i8
  | "i32" => some .i32
  | "void" => some .void
  | _ => none

/-- A type with a star behind it is the type of the address of such a value. -/
def readStars : IrTy → List IrToken → IrTy × List IrToken
  | ty, .mark '*' :: rest => readStars (.ptr ty) rest
  | ty, rest => (ty, rest)

/-- A type, and what stands behind it. -/
def readType : List IrToken → Option (IrTy × List IrToken)
  | .mark '[' :: .word len :: .word "x" :: rest => do
    let len ← readNumber len
    let (elem, .mark ']' :: rest) ← readType rest | none
    return readStars (.array len elem) rest
  | .word name :: rest => (baseType? name).map (readStars · rest)
  | _ => none

/-- A type on its own. -/
def readOnlyType (ts : List IrToken) : Option IrTy := do
  let (ty, []) ← readType ts | none
  return ty

/-- A type and the operand that is taken for it. -/
def readTyped (ts : List IrToken) : Option (IrTy × Operand) := do
  let (ty, [.word value]) ← readType ts | none
  return (ty, ← readOperand value)

/-- Things with commas between them. -/
def readList {α : Type} (readItem : List IrToken → Option α) (ts : List IrToken) : Option (List α) :=
  if ts = [] then some [] else (ts.splitOn (.mark ',')).mapM readItem

/-- What stands in front of the first closing parenthesis, and what stands behind it. -/
def splitClosing (ts : List IrToken) : Option (List IrToken × List IrToken) :=
  match ts.dropWhile (· ≠ .mark ')') with
  | _ :: rest => some (ts.takeWhile (· ≠ .mark ')'), rest)
  | [] => none

/-- Types with commas between them and an ellipsis at their end. -/
def readVariadic (ts : List IrToken) : Option (List IrTy) :=
  let items := ts.splitOn (.mark ',')
  if items.getLast? = some [.word "..."] then items.dropLast.mapM readOnlyType else none

/-- A type and two operands of it. -/
def readPair (ts : List IrToken) : Option (IrTy × Operand × Operand) := do
  let (ty, [.word lhs, .mark ',', .word rhs]) ← readType ts | none
  return (ty, ← readOperand lhs, ← readOperand rhs)

def arithOp? : String → Option ArithOp
  | "add" => some .add
  | "sub" => some .sub
  | "mul" => some .mul
  | _ => none

def comparison? : String → Option Comparison
  | "eq" => some .eq
  | "slt" => some .lt
  | "sle" => some .le
  | "sge" => some .ge
  | _ => none

def readArith (result : Reg) (mnemonic : String) (ts : List IrToken) : Option Instr := do
  let op ← arithOp? mnemonic
  let (ty, lhs, rhs) ← readPair ts
  return .arith result op ty lhs rhs

def readCompare (result : Reg) : List IrToken → Option Instr
  | .word cmp :: ts => do
    let cmp ← comparison? cmp
    let (ty, lhs, rhs) ← readPair ts
    return .compare result cmp ty lhs rhs
  | _ => none

/-- The type of the value, and an address of such a value. -/
def readLoad (result : Reg) (ts : List IrToken) : Option Instr := do
  let (ty, .mark ',' :: rest) ← readType ts | none
  let (ptrTy, ptr) ← readTyped rest
  if ptrTy = .ptr ty then some (.load result ty ptr) else none

/-- The value, and an address of such a value. -/
def readStore (ts : List IrToken) : Option Instr := do
  let (ty, .word value :: .mark ',' :: rest) ← readType ts | none
  let value ← readOperand value
  let (ptrTy, ptr) ← readTyped rest
  if ptrTy = .ptr ty then some (.store ty value ptr) else none

def readIndices : List IrToken → Option (List Operand)
  | [] => some []
  | .mark ',' :: .word "i32" :: .word index :: rest => do
    let index ← readOperand index
    return index :: (← readIndices rest)
  | _ => none

def readElementPtr (result : Reg) (ts : List IrToken) : Option Instr := do
  let (elem, .mark ',' :: rest) ← readType ts | none
  let (ptrTy, .word ptr :: rest) ← readType rest | none
  let ptr ← readOperand ptr
  let indices ← readIndices rest
  if ptrTy = .ptr elem ∧ indices ≠ [] then some (.elementPtr result elem ptr indices) else none

/-- A cast to the type of a value, or to that of the address of a function. -/
def readBitcast (result : Reg) (ts : List IrToken) : Option Instr := do
  let (source, .word value :: .word "to" :: rest) ← readType ts | none
  let value ← readOperand value
  match ← readType rest with
  | (target, []) => return .bitcast result source value target
  | (ret, .mark '(' :: rest) =>
    let (params, [.mark '*']) ← splitClosing rest | none
    let params ← readList readOnlyType params
    if source = .address then some (.methodCast result value ⟨ret, params⟩) else none
  | _ => none

/-- The callee's type behind the type of its result. -/
def readCalleeTy (ret : IrTy) : List IrToken → Option (CalleeTy × List IrToken)
  | .mark '(' :: rest => do
    let (fixed, rest) ← splitClosing rest
    return (.variadic ret (← readVariadic fixed), rest)
  | rest => some (.returns ret, rest)

/-- A call. Only what is not void can be kept. -/
def readCall (result : Option Reg) (ts : List IrToken) : Option Instr := do
  let (ret, rest) ← readType ts
  let (ty, .word callee :: .mark '(' :: rest) ← readCalleeTy ret rest | none
  let callee ← readOperand callee
  let (args, []) ← splitClosing rest | none
  let args ← readList readTyped args
  if result ≠ none ∧ ret = .void then none else some (.call result ty callee args)

/-- Values with the labels that they belong to, each pair in brackets. -/
def readIncoming : List IrToken → Option (List (Operand × Label))
  | .mark '[' :: .word value :: .mark ',' :: .word label :: .mark ']' :: rest => do
    let value ← readOperand value
    let label ← readTarget label
    match rest with
    | [] => return [(value, label)]
    | .mark ',' :: rest => return (value, label) :: (← readIncoming rest)
    | _ => none
  | _ => none

def readPhi (result : Reg) (ts : List IrToken) : Option Instr := do
  let (ty, rest) ← readType ts
  return .phi result ty (← readIncoming rest)

/-- A branch to one target, or to the first of two if a bit is set and to the second if it is not. -/
def readBranch : List IrToken → Option Instr
  | [.word "label", .word target] => (readTarget target).map .branch
  | [.word "i1", .word cond, .mark ',', .word "label", .word ifTrue, .mark ',', .word "label", .word ifFalse] => do
    let cond ← readOperand cond
    let ifTrue ← readTarget ifTrue
    let ifFalse ← readTarget ifFalse
    return .branchIf cond ifTrue ifFalse
  | _ => none

def readRet (ts : List IrToken) : Option Instr :=
  match readTyped ts with
  | some (ty, value) => some (.ret ty value)
  | none => if ts = [.word "void"] then some .retVoid else none

/-- An instruction that defines a register. -/
def readDefining (result : Reg) (mnemonic : String) (ts : List IrToken) : Option Instr :=
  match mnemonic with
  | "icmp" => readCompare result ts
  | "alloca" => (readOnlyType ts).map (.alloca result)
  | "load" => readLoad result ts
  | "getelementptr" => readElementPtr result ts
  | "bitcast" => readBitcast result ts
  | "call" => readCall (some result) ts
  | "phi" => readPhi result ts
  | _ => readArith result mnemonic ts

/-- An instruction that defines none. -/
def readPlain (mnemonic : String) (ts : List IrToken) : Option Instr :=
  match mnemonic with
  | "store" => readStore ts
  | "call" => readCall none ts
  | "br" => readBranch ts
  | "ret" => readRet ts
  | _ => none

/-- An instruction. If its line starts with a register, this is the one that it defines. -/
def readInstr : List IrToken → Option Instr
  | .word head :: ts =>
    match readReg head, ts with
    | none, ts => readPlain head ts
    | some result, .mark '=' :: .word mnemonic :: ts => readDefining result mnemonic ts
    | some _, _ => none
  | _ => none

end IrReader

/-- What a line can be. -/
inductive IrLine where
  | blank
  /-- something with a global name -/
  | global (name : String) (ty : OperandTy)
  /-- the first line of a function -/
  | opening (sig : FnSig)
  /-- the last line of a function -/
  | closing
  | code (line : Line)
deriving DecidableEq

namespace IrReader

/-- The name of a global, with its mark. -/
def readGlobalName (word : String) : Option String :=
  if word.toList.head? = some '@' then some word else none

/-- A global value. Its name stands for its address. -/
def readValue : List IrToken → Option IrLine
  | .word name :: ts => do
    let name ← readGlobalName name
    let .mark '=' :: .word kind :: ts := ts | none
    let (ty, _) ← readType ts
    if kind = "constant" ∨ kind = "global" then some (.global name (.value (.ptr ty))) else none
  | _ => none

/-- A function that is defined elsewhere. -/
def readDeclaration : List IrToken → Option IrLine
  | .word "declare" :: ts => do
    let (ret, .word name :: .mark '(' :: rest) ← readType ts | none
    let name ← readGlobalName name
    let (params, []) ← splitClosing rest | none
    match readVariadic params with
    | some fixed => return .global name (.function ret fixed true)
    | none => return .global name (.function ret (← readList readOnlyType params) false)
  | _ => none

/-- A type and the name of the parameter that has it. -/
def readParam (ts : List IrToken) : Option (IrTy × String) := do
  let (ty, [.word param]) ← readType ts | none
  let '%' :: name := param.toList | none
  return (ty, String.ofList name)

def readDefinition : List IrToken → Option IrLine
  | .word "define" :: ts => do
    let (ret, .word name :: .mark '(' :: rest) ← readType ts | none
    let name ← readGlobalName name
    let (params, [.mark '\x7b']) ← splitClosing rest | none
    return .opening ⟨name, ret, ← readList readParam params⟩
  | _ => none

/-- A line outside of functions. -/
def readOuter (ts : List IrToken) : Option IrLine :=
  if ts = [] then some .blank else readValue ts <|> readDeclaration ts <|> readDefinition ts

/-- A line inside a function. -/
def readInner (ts : List IrToken) : Option IrLine :=
  match readInstr ts with
  | some i => some (.code (.instr i))
  | none =>
    match ts with
    | [.mark '\x7d'] => some .closing
    | [.word label, .mark ':'] => (readLabel label).map fun l => .code (.label l)
    | _ => none

end IrReader

/-- What the text of a module says: the types of its global names, and its functions. -/
structure IrText where
  globals : List (String × OperandTy)
  functions : List IrFunction
deriving DecidableEq

namespace IrText

open IrReader

/-- Puts lines together. Labels and instructions belong to the function that was opened last. -/
def ofLines? : Option IrFunction → List (List IrToken) → Option IrText
  | none, [] => some ⟨[], []⟩
  | some _, [] => none
  | none, ts :: rest =>
    match readOuter ts with
    | some .blank => ofLines? none rest
    | some (.global name ty) =>
      (ofLines? none rest).map fun text => { text with globals := (name, ty) :: text.globals }
    | some (.opening sig) =>
      (ofLines? (some ⟨sig, []⟩) rest).map fun text =>
        { text with globals := (sig.name, sig.operandTy) :: text.globals }
    | _ => none
  | some f, ts :: rest =>
    match readInner ts with
    | some (.code line) => ofLines? (some { f with code := f.code ++ [line] }) rest
    | some .closing => (ofLines? none rest).map fun text => { text with functions := f :: text.functions }
    | _ => none

/-- What a text says, if it is the text of a module. -/
def read? (text : String) : Option IrText :=
  ofLines? none (lineTokens text.toList)

end IrText

end Demitasse
