import Demitasse.Typing.Expr

/-! Checking statements. A statement takes the local variables that have a value before it to those
that have one after it, on every way through it: both branches of an alternative must assign a
variable, and what a loop assigns does not count. -/

namespace Demitasse

mutual

/-- The local variables that have a value after a statement, if it is sound. -/
def Stmt.check (Γ : Context) (assigned : List String) :
    Stmt → Except (Located TypingFault) (List String)
  | .block _ body => Stmt.checkAll Γ assigned body
  | .ifElse _ cond thenBranch elseBranch => do
    cond.check Γ assigned .ifCondition .boolean
    let afterThen ← thenBranch.check Γ assigned
    let afterElse ← elseBranch.check Γ assigned
    return afterElse.filter (· ∈ afterThen)
  | .loop _ cond body => do
    cond.check Γ assigned .whileCondition .boolean
    let _ ← body.check Γ assigned
    return assigned
  | .print _ arg => do
    arg.check Γ assigned .printed .int
    return assigned
  | .assign node target value => do
    let valueTy ← value.typeOf Γ assigned
    let b ← Γ.resolve node target
    Γ.fits .assigned b.ty value.span valueTy
    return if b.storage = .local then assigned.insert target else assigned
  | .assignElement node target index value => do
    let targetTy ← Γ.readVariable assigned node target
    if targetTy ≠ .intArray then throw ⟨node.span, .notArray target targetTy⟩
    index.check Γ assigned .arrayIndex .int
    value.check Γ assigned .arrayElement .int
    return assigned

/-- The local variables that have a value after statements in a row. -/
def Stmt.checkAll (Γ : Context) (assigned : List String) :
    List Stmt → Except (Located TypingFault) (List String)
  | [] => return assigned
  | s :: rest => do
    let assigned ← s.check Γ assigned
    Stmt.checkAll Γ assigned rest

end

/-- The body of a method is sound and its result has the type that it promises. -/
def MethodDecl.checkBody (a : Analysis) (className : String) (m : MethodDecl) :
    Except (Located TypingFault) Unit := do
  let Γ : Context := ⟨a, some className⟩
  let assigned ← Stmt.checkAll Γ [] m.body
  m.result.check Γ assigned .returned m.returnType

end Demitasse
