import Demitasse.Class.Catalog
import Demitasse.Diagnostic
import Demitasse.Scope.OfProgram

/-! What is known about a program before its bodies are looked at: its class forest, its scopes and
the layouts of its objects. -/

namespace Demitasse

/-- Forest, scopes and layouts of a program. -/
structure Analysis where
  forest : Forest
  scopes : ScopeTable
  catalog : Catalog

namespace Analysis

/-- The analysis of a program with a sound class hierarchy. -/
def ofProgram (p : Program) : Except CompileError Analysis := do
  let forest ← (Forest.ofProgram p).mapError .hierarchy
  let scopes ← (ScopeTable.ofProgram p).mapError .hierarchy
  let catalog ← (Catalog.ofProgram p scopes).mapError .lowering
  return ⟨forest, scopes, catalog⟩

end Analysis

/-- Where code stands: in a method of a class, or in the main method. -/
structure Context where
  analysis : Analysis
  className : Option String

end Demitasse
