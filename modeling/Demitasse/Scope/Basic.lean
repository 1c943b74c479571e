import Std.Data.TreeMap.Basic
import Demitasse.Class.Layout

/-! Scopes and what they declare. Scopes are numbered from the root, which is number zero and encloses
all others. A class scope is enclosed by its superclass's scope, so that inherited members are found
on the way outwards. Variables, methods and classes have name spaces of their own, and of two
declarations of one name in one scope the first counts. -/

namespace Demitasse

/-- The number of a scope. -/
abbrev ScopeId := Nat

/-- Where the value of a variable is kept. -/
inductive Storage where
  | param | local | field
deriving DecidableEq

/-- A declared variable. -/
structure VarBinding where
  ty : Ty
  storage : Storage
  decl : NodeId
deriving DecidableEq

/-- A declared method. -/
structure MethodBinding where
  signature : MethodSig
  decl : NodeId
deriving DecidableEq

/-- A declared class. -/
structure ClassBinding where
  layout : Layout
  decl : NodeId
deriving DecidableEq

/-- What one scope declares. -/
structure Scope where
  /-- the scopes around this one, from the nearest one to the root -/
  outer : List ScopeId
  /-- the class that the scope belongs to -/
  className : Option String
  vars : List (String × VarBinding)
  methods : List (String × MethodBinding)
deriving DecidableEq

/-- The scope directly around a scope. -/
def Scope.parent? (s : Scope) : Option ScopeId :=
  s.outer.head?

/-- The scopes of a program. -/
structure ScopeTable where
  scopes : Array Scope
  /-- the scope of every node -/
  nodes : Std.TreeMap NodeId ScopeId
  /-- the scopes of classes, the latest first -/
  classScopes : List (String × ScopeId)
  /-- the classes, all of them declared by the root -/
  classes : List (String × ClassBinding)

namespace ScopeTable

/-- The number of the root. -/
def root : ScopeId :=
  0

/-- The scope that a node lies in. -/
def scopeOf? (t : ScopeTable) (node : NodeId) : Option ScopeId :=
  t.nodes[node]?

/-- The scope of a class. -/
def classScope? (t : ScopeTable) (className : String) : Option ScopeId :=
  t.classScopes.lookup className

/-- A scope and those around it, from the inside out. -/
def chain (t : ScopeTable) (s : ScopeId) : List ScopeId :=
  s :: (t.scopes[s]?.map (·.outer)).getD []

/-- The variable that a scope declares under a name. -/
def ownVariable? (t : ScopeTable) (s : ScopeId) (name : String) : Option VarBinding :=
  t.scopes[s]?.bind fun scope => scope.vars.lookup name

/-- The method that a scope declares under a name. -/
def ownMethod? (t : ScopeTable) (s : ScopeId) (name : String) : Option MethodBinding :=
  t.scopes[s]?.bind fun scope => scope.methods.lookup name

/-- The class that a scope declares under a name. -/
def ownClass? (t : ScopeTable) (s : ScopeId) (name : String) : Option ClassBinding :=
  if s = root then t.classes.lookup name else none

/-- The variable of a name that is visible in a scope. -/
def visibleVariable? (t : ScopeTable) (s : ScopeId) (name : String) : Option VarBinding :=
  (t.chain s).findSome? fun i => t.ownVariable? i name

/-- The method of a name that is visible in a scope. -/
def visibleMethod? (t : ScopeTable) (s : ScopeId) (name : String) : Option MethodBinding :=
  (t.chain s).findSome? fun i => t.ownMethod? i name

/-- The class of a name that is visible in a scope. -/
def visibleClass? (t : ScopeTable) (s : ScopeId) (name : String) : Option ClassBinding :=
  (t.chain s).findSome? fun i => t.ownClass? i name

/-- The variable of a name that is visible at a node. -/
def resolve? (t : ScopeTable) (node : NodeId) (name : String) : Option VarBinding :=
  (t.scopeOf? node).bind fun s => t.visibleVariable? s name

/-- The method that instances of a class have under a name, their own or inherited. -/
def classMethod? (t : ScopeTable) (className name : String) : Option MethodSig :=
  (t.classScope? className).bind fun s => (t.visibleMethod? s name).map (·.signature)

/-- The layout of a class, or of the main class. -/
def layout? (t : ScopeTable) (className : String) : Option Layout :=
  (t.ownClass? root className).map (·.layout)

end ScopeTable

end Demitasse
