import Demitasse.Class.Forest
import Demitasse.Program.Visit
import Demitasse.Scope.Basic

/-! The scopes of a program: the root, the main class, and for every class in declaration order its
own scope followed by those of its methods. -/

namespace Demitasse

/-- What a declaration says about its variable. -/
def VarDecl.bind (v : VarDecl) (storage : Storage) : String × VarBinding :=
  (v.name, ⟨v.ty, storage, v.node.id⟩)

/-- The scope of a method inside the scopes `outer`; parameters come before local variables. -/
def MethodDecl.scope (m : MethodDecl) (className : String) (outer : List ScopeId) : Scope where
  outer := outer
  className := some className
  vars := m.formals.map (·.bind .param) ++ m.locals.map (·.bind .local)
  methods := []

/-- The scope of a class inside the scopes `outer`. -/
def ClassDecl.scope (c : ClassDecl) (outer : List ScopeId) : Scope where
  outer := outer
  className := some c.name
  vars := c.fields.map (·.bind .field)
  methods := c.methods.map fun m => (m.name, ⟨m.signature c.name, m.node.id⟩)

/-- The nodes of a class and their scopes, if the class has number `k` and its methods those behind. -/
def ClassDecl.nodeScopes (c : ClassDecl) (k : ScopeId) : List (NodeId × ScopeId) :=
  (c.node.id :: c.fields.map (·.node.id)).map (·, k)
    ++ (c.methods.zipIdx (k + 1)).flatMap fun (m, i) => (nodeIds m.visits).map (·, i)

namespace ScopeTable

/-- The scopes of a program that has only its main class. -/
def ofMain (m : MainClass) : ScopeTable where
  scopes := #[⟨[], none, [], []⟩, ⟨[root], some m.name, [], []⟩]
  nodes := .ofList ((nodeIds m.visits).map (·, 1))
  classScopes := []
  classes := [(m.name, ⟨.empty m.name, m.node.id⟩)]

/-- The scopes around a class and the layout it inherits. -/
def surroundings (t : ScopeTable) (c : ClassDecl) :
    Except (Located HierarchyFault) (List ScopeId × Option Layout) :=
  match c.superName with
  | none => .ok ([root], none)
  | some superName =>
    match t.classScope? superName, t.layout? superName with
    | some s, some layout => .ok (t.chain s, some layout)
    | _, _ => .error ⟨c.node.span, .superclassUnavailable c.name superName⟩

/-- Adds a class and its methods inside the scopes `outer`. -/
def withClass (t : ScopeTable) (c : ClassDecl) (outer : List ScopeId) (inherited : Option Layout) :
    ScopeTable where
  scopes := t.scopes.push (c.scope outer)
    ++ (c.methods.map fun m => m.scope c.name (t.scopes.size :: outer)).toArray
  nodes := t.nodes.insertMany (c.nodeScopes t.scopes.size)
  classScopes := (c.name, t.scopes.size) :: t.classScopes
  classes := t.classes ++ [(c.name, ⟨.ofClass c inherited, c.node.id⟩)]

/-- Adds a class and its methods where its superclass says. -/
def addClass (t : ScopeTable) (c : ClassDecl) : Except (Located HierarchyFault) ScopeTable := do
  let (outer, inherited) ← t.surroundings c
  return t.withClass c outer inherited

/-- The scopes of a program. -/
def ofProgram (p : Program) : Except (Located HierarchyFault) ScopeTable :=
  p.classes.foldlM addClass (ofMain p.main)

end ScopeTable

end Demitasse
