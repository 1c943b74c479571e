import Demitasse.Typing.Stmt

/-! Checking programs: first the declarations of all classes, then the main statement and the bodies
of all methods. The first fault in this order is the one that is reported. -/

namespace Demitasse

/-- Fields have known types and names that neither their class nor an ancestor has already. -/
def ClassDecl.checkFields (F : Forest) (c : ClassDecl) (inherited : List String) :
    (seen : List String) → List VarDecl → Except (Located TypingFault) Unit
  | _, [] => return ()
  | seen, f :: rest => do
    F.checkType f.ty f.node.span
    if f.name ∈ seen then throw ⟨f.node.span, .fieldTwice f.name c.name⟩
    if f.name ∈ inherited then throw ⟨f.node.span, .fieldInherited f.name c.name⟩
    c.checkFields F inherited (f.name :: seen) rest

/-- Variables have known types and new names; the result adds their names to those that were `seen`. -/
def checkBindings (F : Forest) (repeated : String → TypingFault) :
    (seen : List String) → List VarDecl → Except (Located TypingFault) (List String)
  | seen, [] => return seen
  | seen, v :: rest => do
    F.checkType v.ty v.node.span
    if v.name ∈ seen then throw ⟨v.node.span, repeated v.name⟩
    checkBindings F repeated (v.name :: seen) rest

/-- A method takes the same parameters as the one that it overrides, and returns no less. -/
def MethodDecl.checkOverride (a : Analysis) (c : ClassDecl) (m : MethodDecl) :
    Except (Located TypingFault) Unit :=
  match c.superName.bind fun superName => a.scopes.classMethod? superName m.name with
  | none => return ()
  | some overridden => do
    if overridden.formalTypes ≠ m.formals.map (·.ty) then
      throw ⟨m.node.span, .overrideParameters c.name m.name overridden.qualifiedName⟩
    if ¬ a.forest.assignable m.returnType overridden.ret then
      throw ⟨m.node.span,
        .overrideResult c.name m.name m.returnType overridden.ret overridden.qualifiedName⟩

/-- The declaration of a method is sound. -/
def MethodDecl.checkDecl (a : Analysis) (c : ClassDecl) (m : MethodDecl) :
    Except (Located TypingFault) Unit := do
  a.forest.checkType m.returnType m.node.span
  let names ← checkBindings a.forest (.parameterTwice · m.name) [] m.formals
  let _ ← checkBindings a.forest (.variableTwice · m.name) names m.locals
  m.checkOverride a c

/-- The methods of a class have different names and sound declarations. -/
def ClassDecl.checkMethods (a : Analysis) (c : ClassDecl) :
    (seen : List String) → List MethodDecl → Except (Located TypingFault) Unit
  | _, [] => return ()
  | seen, m :: rest => do
    if m.name ∈ seen then throw ⟨m.node.span, .methodTwice m.name c.name⟩
    m.checkDecl a c
    c.checkMethods a (m.name :: seen) rest

/-- The declarations of a class are sound. -/
def ClassDecl.checkDecl (a : Analysis) (c : ClassDecl) : Except (Located TypingFault) Unit := do
  let inherited := (a.forest.ancestors c.name).flatMap fun ancestor => ancestor.fields.map (·.name)
  c.checkFields a.forest inherited [] c.fields
  c.checkMethods a [] c.methods

/-- A program is sound in the light of an analysis. -/
def Program.check (a : Analysis) (p : Program) : Except (Located TypingFault) Unit := do
  p.classes.forM (·.checkDecl a)
  let _ ← p.main.body.check ⟨a, none⟩ []
  p.classes.forM fun c => c.methods.forM (·.checkBody a c.name)

end Demitasse
