import Demitasse.Lower.Fault
import Demitasse.Scope.Basic

/-! The classes of a program with their layouts, in declaration order. -/

namespace Demitasse

/-- A class with the layout of its objects. -/
structure CatalogEntry where
  layout : Layout
  decl : ClassDecl

/-- Classes by name. -/
structure Catalog where
  entries : Table CatalogEntry

namespace Catalog

/-- Adds a class with the layout that the scopes have for its name. -/
def add (t : ScopeTable) (catalog : Catalog) (c : ClassDecl) : Except LoweringFault Catalog :=
  match t.visibleClass? ScopeTable.root c.name with
  | some b => .ok ⟨catalog.entries.insert c.name ⟨b.layout, c⟩⟩
  | none => .error (.missingClass c.name)

/-- The classes of a program with the layouts that the scopes have for their names. -/
def ofProgram (p : Program) (t : ScopeTable) : Except LoweringFault Catalog :=
  p.classes.foldlM (add t) ⟨.empty⟩

/-- A class by its name. -/
def find? (catalog : Catalog) (className : String) : Option CatalogEntry :=
  catalog.entries.find? className

/-- The layout of a class. -/
def layout? (catalog : Catalog) (className : String) : Option Layout :=
  (catalog.find? className).map (·.layout)

/-- The number of bytes of an object of a class. -/
def size? (catalog : Catalog) (className : String) : Option Nat :=
  (catalog.layout? className).map Layout.size

end Catalog

end Demitasse
