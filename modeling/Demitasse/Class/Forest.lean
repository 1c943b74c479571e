import Demitasse.Program.Basic

/-! The inheritance forest of a program. Every superclass is declared before its subclasses, so a
class's ancestors stand before it and its descendants behind it in the list of declarations. -/

namespace Demitasse

/-- Why the classes of a program form no forest. -/
inductive HierarchyFault where
  | namedLikeMain (className : String)
  | declaredTwice (className : String)
  | extendsItself (className : String)
  | extendsUndeclared (className superName : String)
  | extendsLater (className superName : String)
  | superclassUnavailable (className superName : String)
deriving DecidableEq

/-- The message of a fault. -/
def HierarchyFault.message : HierarchyFault → String
  | .namedLikeMain className => "Class '" ++ className ++ "' has the same name as the main class"
  | .declaredTwice className => "Class '" ++ className ++ "' is declared more than once"
  | .extendsItself className => "Class '" ++ className ++ "' extends itself"
  | .extendsUndeclared className superName =>
    "Class '" ++ className ++ "' extends undeclared class '" ++ superName ++ "'"
  | .extendsLater className superName =>
    "Class '" ++ className ++ "' extends '" ++ superName ++ "', which is declared later"
  | .superclassUnavailable className superName =>
    "Superclass '" ++ superName ++ "' of '" ++ className ++ "' is not available"

/-- Classes in declaration order, every superclass before its subclasses. -/
structure Forest where
  classes : List ClassDecl

namespace Forest

/-- No class is named like the main class, and no two share a name. `seen` are the names so far. -/
def checkNames (mainName : String) :
    (seen : List String) → List ClassDecl → Except (Located HierarchyFault) Unit
  | _, [] => .ok ()
  | seen, c :: rest =>
    if c.name = mainName then .error ⟨c.node.span, .namedLikeMain c.name⟩
    else if c.name ∈ seen then .error ⟨c.node.span, .declaredTwice c.name⟩
    else checkNames mainName (c.name :: seen) rest

/-- The superclass of `c` is declared, and among the `earlier` names. -/
def checkSuper (declared earlier : List String) (c : ClassDecl) :
    Except (Located HierarchyFault) Unit :=
  match c.superName with
  | none => .ok ()
  | some superName =>
    if superName = c.name then .error ⟨c.node.span, .extendsItself c.name⟩
    else if superName ∉ declared then .error ⟨c.node.span, .extendsUndeclared c.name superName⟩
    else if superName ∉ earlier then .error ⟨c.node.span, .extendsLater c.name superName⟩
    else .ok ()

/-- Every superclass is declared before its subclasses. -/
def checkSupers (declared : List String) :
    (earlier : List String) → List ClassDecl → Except (Located HierarchyFault) Unit
  | _, [] => .ok ()
  | earlier, c :: rest => do
    checkSuper declared earlier c
    checkSupers declared (c.name :: earlier) rest

/-- The forest of a program, or the first class that does not fit into one. -/
def ofProgram (p : Program) : Except (Located HierarchyFault) Forest := do
  checkNames p.main.name [] p.classes
  checkSupers (p.classes.map (·.name)) [] p.classes
  return ⟨p.classes⟩

/-- Class names in declaration order. -/
def classNames (F : Forest) : List String :=
  F.classes.map (·.name)

/-- The declaration of a class. -/
def find? (F : Forest) (name : String) : Option ClassDecl :=
  F.classes.find? fun c => c.name = name

/-- Whether a class is declared; the main class is not. -/
def contains (F : Forest) (name : String) : Bool :=
  (F.find? name).isSome

/-- The classes without a superclass. -/
def roots (F : Forest) : List ClassDecl :=
  F.classes.filter fun c => c.superName.isNone

/-- The direct subclasses of a class. -/
def children (F : Forest) (name : String) : List ClassDecl :=
  F.classes.filter fun c => c.superName = some name

/-- A class and its ancestors, nearest first, in declarations that are listed latest first. -/
def lineageIn : List ClassDecl → String → List ClassDecl
  | [], _ => []
  | c :: earlier, name =>
    if c.name = name then
      c :: match c.superName with
        | some superName => lineageIn earlier superName
        | none => []
    else lineageIn earlier name

/-- A class and its ancestors, nearest first. -/
def lineage (F : Forest) (name : String) : List ClassDecl :=
  lineageIn F.classes.reverse name

/-- The ancestors of a class without itself, nearest first. -/
def ancestors (F : Forest) (name : String) : List ClassDecl :=
  (F.lineage name).tail

/-- The superclass of a class. -/
def parent? (F : Forest) (name : String) : Option ClassDecl :=
  (F.ancestors name).head?

/-- The number of ancestors of a declared class. -/
def depth? (F : Forest) (name : String) : Option Nat :=
  if F.contains name then some (F.ancestors name).length else none

/-- Whether `child` is declared and is `ancestor` or inherits from it. -/
def isSubclass (F : Forest) (child ancestor : String) : Bool :=
  F.contains child && (child = ancestor || (F.ancestors child).any fun c => c.name = ancestor)

/-- The ancestor, or the class itself, that is the first from the root to declare a method. -/
def introducer? (F : Forest) (name method : String) : Option ClassDecl :=
  (F.lineage name).reverse.find? fun c => (c.method? method).isSome

/-- The descendants of `name` among declarations that all stand behind it, parents first. -/
def descendantsIn : List ClassDecl → String → List String
  | [], _ => []
  | c :: later, name =>
    if c.superName = some name then
      c.name :: (descendantsIn later c.name ++ descendantsIn later name)
    else descendantsIn later name

/-- A class and its descendants, parents first. -/
def family (F : Forest) (name : String) : List String :=
  match F.classes.dropWhile fun c => c.name ≠ name with
  | [] => []
  | c :: later => c.name :: descendantsIn later c.name

end Forest

end Demitasse
