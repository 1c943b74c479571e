import Demitasse.Analysis

/-! Types of expressions. A local variable counts only where it was assigned before, on every way that
leads there. -/

namespace Demitasse

/-- The type that both operands of an operator must have. -/
def BinOp.operandTy : BinOp → Ty
  | .and => .boolean
  | .less | .add | .sub | .mul => .int

/-- The type of what an operator computes. -/
def BinOp.resultTy : BinOp → Ty
  | .and | .less => .boolean
  | .add | .sub | .mul => .int

/-- Whether a value of the first type may stand where the second is wanted: equal types, or a declared
class and itself or one of its ancestors. -/
def Forest.assignable (F : Forest) : Ty → Ty → Bool
  | .object child, .object ancestor => F.isSubclass child ancestor
  | actual, expected => actual = expected

/-- A class type is one of a declared class. -/
def Forest.checkType (F : Forest) (ty : Ty) (span : Span) : Except (Located TypingFault) Unit :=
  match ty with
  | .object className =>
    if F.contains className then .ok () else .error ⟨span, .unknownClass className⟩
  | _ => .ok ()

namespace Context

/-- A value of type `actual` may play a part that asks for `expected`. -/
def fits (Γ : Context) (role : Role) (expected : Ty) (span : Span) (actual : Ty) :
    Except (Located TypingFault) Unit :=
  if Γ.analysis.forest.assignable actual expected then .ok ()
  else .error ⟨span, .mismatch role expected actual⟩

/-- The variable of a name at a node. -/
def resolve (Γ : Context) (node : Node) (name : String) : Except (Located TypingFault) VarBinding :=
  match Γ.analysis.scopes.resolve? node.id name with
  | some b => .ok b
  | none => .error ⟨node.span, .undeclared name⟩

/-- The type of a variable that is read at a node, where `assigned` are the local variables that have
a value. -/
def readVariable (Γ : Context) (assigned : List String) (node : Node) (name : String) :
    Except (Located TypingFault) Ty := do
  let b ← Γ.resolve node name
  if b.storage = .local ∧ name ∉ assigned then throw ⟨node.span, .unassigned name⟩
  return b.ty

/-- The method that a call of `method` on a value of type `owner` reaches, if it takes `count`
arguments. -/
def callee (Γ : Context) (node : Node) (ownerSpan : Span) (owner : Ty) (method : String) (count : Nat) :
    Except (Located TypingFault) MethodSig :=
  match owner.className? with
  | none => .error ⟨ownerSpan, .notObject method owner⟩
  | some className =>
    match Γ.analysis.scopes.classMethod? className method with
    | none => .error ⟨node.span, .noMethod className method⟩
    | some signature =>
      if signature.formals.length = count then .ok signature
      else .error ⟨node.span, .argumentCount signature.qualifiedName signature.formals.length count⟩

end Context

mutual

/-- The type of an expression, where `assigned` are the local variables that have a value. -/
def Expr.typeOf (Γ : Context) (assigned : List String) : Expr → Except (Located TypingFault) Ty
  | .binary _ op left right => do
    Γ.fits (.operand op) op.operandTy left.span (← left.typeOf Γ assigned)
    Γ.fits (.operand op) op.operandTy right.span (← right.typeOf Γ assigned)
    return op.resultTy
  | .element _ array index => do
    Γ.fits .indexed .intArray array.span (← array.typeOf Γ assigned)
    Γ.fits .arrayIndex .int index.span (← index.typeOf Γ assigned)
    return .int
  | .length _ array => do
    Γ.fits .measured .intArray array.span (← array.typeOf Γ assigned)
    return .int
  | .call node owner method args => do
    let ownerTy ← owner.typeOf Γ assigned
    let signature ← Γ.callee node owner.span ownerTy method args.length
    Expr.checkArgs Γ assigned args signature.formalTypes
    return signature.ret
  | .int _ _ => return .int
  | .bool _ _ => return .boolean
  | .var node name => Γ.readVariable assigned node name
  | .this node =>
    match Γ.className with
    | some className => return .object className
    | none => throw ⟨node.span, .thisInMain⟩
  | .newArray _ size => do
    Γ.fits .arraySize .int size.span (← size.typeOf Γ assigned)
    return .intArray
  | .newObject node className => do
    Γ.analysis.forest.checkType (.object className) node.span
    return .object className
  | .not _ operand => do
    Γ.fits .negated .boolean operand.span (← operand.typeOf Γ assigned)
    return .boolean

/-- Arguments fit the types of their parameters, one by one. -/
def Expr.checkArgs (Γ : Context) (assigned : List String) :
    List Expr → List Ty → Except (Located TypingFault) Unit
  | arg :: args, formal :: formals => do
    Γ.fits .argument formal arg.span (← arg.typeOf Γ assigned)
    Expr.checkArgs Γ assigned args formals
  | _, _ => return ()

end

/-- An expression may play a part that asks for `expected`. -/
def Expr.check (Γ : Context) (assigned : List String) (role : Role) (expected : Ty) (e : Expr) :
    Except (Located TypingFault) Unit := do
  Γ.fits role expected e.span (← e.typeOf Γ assigned)

end Demitasse
