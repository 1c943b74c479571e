import Demitasse.Lower.Stmt

/-! Code for programs: a method table for every class, the main function and a function for every
method. -/

namespace Demitasse

open Lower

/-- Keeps the parameters on the stack, where they have addresses like other variables. -/
def lowerFormals : List VarDecl → Lower Code
  | [] => return []
  | f :: rest => do
    let slot ← slot f.name f.node.id
    let code ← lowerFormals rest
    return .instr (.alloca slot f.ty.ir) :: .instr (.store f.ty.ir (.reg (.param f.name)) (.reg slot))
      :: code

/-- Makes room for the local variables on the stack. -/
def lowerLocals : List VarDecl → Lower Code
  | [] => return []
  | v :: rest => do
    let slot ← slot v.name v.node.id
    let code ← lowerLocals rest
    return .instr (.alloca slot v.ty.ir) :: code

/-- The code of a method's body, up to the return of its result. -/
def MethodDecl.lowerBody (Γ : Context) (m : MethodDecl) : Lower Code := do
  let formalsCode ← lowerFormals m.formals
  let localsCode ← lowerLocals m.locals
  let bodyCode ← Stmt.lowerAll Γ m.body
  let (resultCode, result) ← m.result.lower Γ
  return formalsCode ++ localsCode ++ bodyCode ++ resultCode
    ++ [.instr (.ret m.returnType.ir result.operand)]

/-- The function of a method. -/
def MethodDecl.lower (a : Analysis) (className : String) (m : MethodDecl) :
    Except LoweringFault IrFunction := do
  let code ← (m.lowerBody ⟨a, some className⟩).run' .fresh
  return ⟨.ofMethod (m.signature className), code⟩

/-- The main function. -/
def MainClass.lower (a : Analysis) (m : MainClass) : Except LoweringFault IrFunction := do
  let code ← (m.body.lower ⟨a, none⟩).run' .fresh
  return ⟨⟨"@main", .i32, []⟩, code ++ [.instr (.ret .i32 (.const 0))]⟩

/-- The method table of a class. -/
def Layout.methodTable (l : Layout) (className : String) : MethodTable :=
  ⟨methodTableName className, l.methods.values.map FnSig.ofMethod⟩

/-- The method tables of all classes. -/
def Catalog.methodTables (catalog : Catalog) : List MethodTable :=
  catalog.entries.entries.map fun (className, entry) => entry.layout.methodTable className

/-- The module of a program in the light of an analysis, which names the classes with a table. -/
def Program.lower (a : Analysis) (p : Program) : Except LoweringFault IrModule := do
  let main ← p.main.lower a
  let methods ← p.classes.mapM fun c => c.methods.mapM (·.lower a c.name)
  return {
    preamble := preamble
    tables := a.catalog.methodTables
    functions := main :: methods.flatten }

end Demitasse
