import Demitasse.Analysis

/-! A listing of the class forest with the offsets of fields and the slots of methods. -/

namespace Demitasse

/-- A number in at least three columns, at their right. -/
def threeColumns (n : Nat) : String :=
  let digits := toString n
  String.ofList (List.replicate (3 - digits.length) ' ') ++ digits

/-- The lines of a class, indented by two blanks for every ancestor. -/
def Layout.describe (l : Layout) (name : String) (depth : Nat) : String :=
  let margin := String.ofList (List.replicate (2 * depth) ' ')
  let extension := match l.superName with
    | some superName => " extends " ++ superName
    | none => ""
  let header := margin ++ name ++ extension ++ " (size " ++ toString l.size ++ ")\n"
  let fields := l.fields.entries.map fun (field, ty) =>
    margin ++ "  field " ++ threeColumns ((l.fieldOffset? field).getD 0) ++ "  " ++ ty.spelling ++ " "
      ++ field ++ "\n"
  let slots := l.methods.entries.zipIdx.map fun ((method, signature), slot) =>
    margin ++ "  slot  " ++ threeColumns slot ++ "  " ++ method ++ " -> " ++ signature.qualifiedName
      ++ "\n"
  header ++ String.join fields ++ String.join slots

/-- The lines of all classes, tree by tree. -/
def Analysis.describe (a : Analysis) : String :=
  let names := a.forest.roots.flatMap fun root => a.forest.family root.name
  String.join <| names.map fun name =>
    match a.catalog.layout? name with
    | some layout => layout.describe name ((a.forest.depth? name).getD 0)
    | none => ""

end Demitasse
