import Demitasse.Proofs.Reading

/-!
The nodes of a program as trees. A walk over the program meets a node before its parts; identities are handed out to
the parts before the node. In a program that was read the identities grow in that order: every node has a larger one
than all nodes below it, and of two nodes side by side the later one and what is below it have the larger ones.
-/

namespace Demitasse

/-- A node with the trees of the parts that it is made of, in source order. -/
inductive NodeTree where
  | mk (node : Node) (parts : List NodeTree)

namespace NodeTree

/-- The node at the top. -/
def node : NodeTree → Node
  | .mk node _ => node

/-- The trees directly below. -/
def parts : NodeTree → List NodeTree
  | .mk _ parts => parts

mutual

/-- The nodes of a tree, the top before its parts. -/
@[simp] def preorder : NodeTree → List Node
  | .mk node parts => node :: preorderAll parts

/-- The nodes of trees in a row, each top before its parts. -/
@[simp] def preorderAll : List NodeTree → List Node
  | [] => []
  | t :: rest => t.preorder ++ preorderAll rest

end

mutual

/-- The nodes of a tree, the parts before the top. -/
@[simp] def postorder : NodeTree → List Node
  | .mk node parts => postorderAll parts ++ [node]

/-- The nodes of trees in a row, the parts before each top. -/
@[simp] def postorderAll : List NodeTree → List Node
  | [] => []
  | t :: rest => t.postorder ++ postorderAll rest

end

/-- A tree is another one or stands somewhere in it. -/
inductive Inside (t : NodeTree) : NodeTree → Prop
  | self : Inside t t
  | part {s u : NodeTree} (hs : s ∈ u.parts) (h : Inside t s) : Inside t u

/-- All identities of the one tree are smaller than all of the other. -/
def Precedes (s t : NodeTree) : Prop :=
  ∀ m ∈ s.preorder, ∀ n ∈ t.preorder, m.id < n.id

/-- The node at the top has a larger identity than all nodes below, and the parts precede each other in source
order. -/
structure LastInTree (t : NodeTree) : Prop where
  below : ∀ s ∈ t.parts, ∀ n ∈ s.preorder, n.id < t.node.id
  parts : t.parts.Pairwise Precedes

theorem preorderAll_eq (ts : List NodeTree) : preorderAll ts = ts.flatMap preorder := by
  induction ts with
  | nil => rfl
  | cons t rest ih => rw [preorderAll, ih, List.flatMap_cons]

theorem postorderAll_eq (ts : List NodeTree) : postorderAll ts = ts.flatMap postorder := by
  induction ts with
  | nil => rfl
  | cons t rest ih => rw [postorderAll, ih, List.flatMap_cons]

theorem postorder_eq (t : NodeTree) : t.postorder = postorderAll t.parts ++ [t.node] := by
  cases t with
  | mk node parts => rw [postorder, NodeTree.parts, NodeTree.node]

mutual

theorem preorder_perm_postorder : ∀ t : NodeTree, t.preorder.Perm t.postorder
  | .mk node parts => by
      rw [preorder, postorder]
      exact ((preorderAll_perm_postorderAll parts).cons node).trans (List.perm_append_singleton _ _).symm

theorem preorderAll_perm_postorderAll : ∀ ts : List NodeTree, (preorderAll ts).Perm (postorderAll ts)
  | [] => List.Perm.refl _
  | t :: rest => by
      rw [preorderAll, postorderAll]
      exact t.preorder_perm_postorder.append (preorderAll_perm_postorderAll rest)

end

theorem mem_postorder {t : NodeTree} {n : Node} : n ∈ t.postorder ↔ n ∈ t.preorder :=
  t.preorder_perm_postorder.mem_iff.symm

/-- What stands in a tree is listed in one piece, up to nodes that come before and behind. -/
theorem Inside.sublist {t u : NodeTree} (h : t.Inside u) : t.postorder.Sublist u.postorder := by
  induction h with
  | self => exact List.Sublist.refl _
  | @part s u hs _ ih =>
      rw [postorder_eq u, postorderAll_eq, List.flatMap_def]
      have hpart := List.sublist_flatten_of_mem (List.mem_map_of_mem (f := postorder) hs)
      exact ih.trans (hpart.trans (List.sublist_append_left _ _))

/-- Trees side by side precede each other if identities grow along their nodes, parts first. -/
theorem pairwise_precedes {ts : List NodeTree} (h : ((postorderAll ts).map (·.id)).Pairwise (· < ·)) :
    ts.Pairwise Precedes := by
  rw [List.pairwise_map, postorderAll_eq, List.pairwise_flatMap] at h
  refine h.2.imp fun hst m hm n hn => ?_
  exact hst m (mem_postorder.mpr hm) n (mem_postorder.mpr hn)

theorem lastInTree_of_sorted {t : NodeTree} (h : (t.postorder.map (·.id)).Pairwise (· < ·)) : t.LastInTree := by
  rw [postorder_eq, List.map_append, List.pairwise_append] at h
  refine ⟨fun s hs n hn => ?_, pairwise_precedes h.1⟩
  refine h.2.2 n.id (List.mem_map_of_mem ?_) t.node.id (List.mem_singleton_self _)
  rw [postorderAll_eq]
  exact List.mem_flatMap.mpr ⟨s, hs, mem_postorder.mpr hn⟩

/-- If identities grow along the nodes of a tree, parts first, then so they do in every tree that stands in it. -/
theorem Inside.lastInTree {t u : NodeTree} (ht : t.Inside u) (h : (u.postorder.map (·.id)).Pairwise (· < ·)) :
    t.LastInTree :=
  lastInTree_of_sorted (h.sublist (ht.sublist.map _))

end NodeTree

mutual

/-- The tree of an expression. -/
@[simp] def Expr.tree : Expr → NodeTree
  | .binary node _ left right => .mk node [left.tree, right.tree]
  | .element node array index => .mk node [array.tree, index.tree]
  | .length node array => .mk node [array.tree]
  | .call node owner _ args => .mk node (owner.tree :: Expr.trees args)
  | .newArray node size => .mk node [size.tree]
  | .not node operand => .mk node [operand.tree]
  | .int node _ | .bool node _ | .var node _ | .this node | .newObject node _ => .mk node []

/-- The trees of expressions in a row. -/
@[simp] def Expr.trees : List Expr → List NodeTree
  | [] => []
  | e :: rest => e.tree :: Expr.trees rest

end

mutual

/-- The tree of a statement. -/
@[simp] def Stmt.tree : Stmt → NodeTree
  | .block node body => .mk node (Stmt.trees body)
  | .ifElse node cond thenBranch elseBranch => .mk node [cond.tree, thenBranch.tree, elseBranch.tree]
  | .loop node cond body => .mk node [cond.tree, body.tree]
  | .print node arg => .mk node [arg.tree]
  | .assign node _ value => .mk node [value.tree]
  | .assignElement node _ index value => .mk node [index.tree, value.tree]

/-- The trees of statements in a row. -/
@[simp] def Stmt.trees : List Stmt → List NodeTree
  | [] => []
  | s :: rest => s.tree :: Stmt.trees rest

end

/-- The tree of a declared variable. -/
def VarDecl.tree (v : VarDecl) : NodeTree :=
  .mk v.node []

/-- The tree of a method. -/
def MethodDecl.tree (m : MethodDecl) : NodeTree :=
  .mk m.node (m.formals.map VarDecl.tree ++ m.locals.map VarDecl.tree ++ Stmt.trees m.body ++ [m.result.tree])

/-- The tree of a class. -/
def ClassDecl.tree (c : ClassDecl) : NodeTree :=
  .mk c.node (c.fields.map VarDecl.tree ++ c.methods.map MethodDecl.tree)

/-- The tree of the main class. -/
def MainClass.tree (c : MainClass) : NodeTree :=
  .mk c.node [c.body.tree]

/-- The trees of a program: that of its main class and those of its classes. -/
def Program.trees (p : Program) : List NodeTree :=
  p.main.tree :: p.classes.map ClassDecl.tree

open NodeTree

/-- The nodes that a walk meets. -/
def nodes (visits : List Visit) : List Node :=
  visits.filterMap Visit.node?

@[simp] theorem nodes_append (v w : List Visit) : nodes (v ++ w) = nodes v ++ nodes w :=
  List.filterMap_append

theorem nodes_flatMap {α : Type} (visits : α → List Visit) (l : List α) :
    nodes (l.flatMap visits) = l.flatMap fun a => nodes (visits a) :=
  List.filterMap_flatMap

@[simp] theorem nodes_nil : nodes [] = [] :=
  rfl

@[simp] theorem nodes_expr (node : Node) (w : List Visit) : nodes (.expr node :: w) = node :: nodes w :=
  rfl

@[simp] theorem nodes_stmt (node : Node) (w : List Visit) : nodes (.stmt node :: w) = node :: nodes w :=
  rfl

mutual

/-- A walk meets the nodes of an expression, the top before its parts. -/
theorem Expr.preorder_tree : ∀ e : Expr, e.tree.preorder = nodes e.visits
  | .binary _ _ left right => by simp [Expr.visits, left.preorder_tree, right.preorder_tree]
  | .element _ array index => by simp [Expr.visits, array.preorder_tree, index.preorder_tree]
  | .length _ array => by simp [Expr.visits, array.preorder_tree]
  | .call _ owner _ args => by simp [Expr.visits, owner.preorder_tree, Expr.preorder_trees args]
  | .newArray _ size => by simp [Expr.visits, size.preorder_tree]
  | .not _ operand => by simp [Expr.visits, operand.preorder_tree]
  | .int .. | .bool .. | .var .. | .this _ | .newObject .. => by simp [Expr.visits]

theorem Expr.preorder_trees : ∀ es : List Expr, preorderAll (Expr.trees es) = nodes (Expr.visitsAll es)
  | [] => rfl
  | e :: rest => by simp [Expr.visitsAll, e.preorder_tree, Expr.preorder_trees rest]

end

mutual

theorem Stmt.preorder_tree : ∀ s : Stmt, s.tree.preorder = nodes s.visits
  | .block _ body => by simp [Stmt.visits, Stmt.preorder_trees body]
  | .ifElse _ cond thenBranch elseBranch => by
      simp [Stmt.visits, cond.preorder_tree, thenBranch.preorder_tree, elseBranch.preorder_tree]
  | .loop _ cond body => by simp [Stmt.visits, cond.preorder_tree, body.preorder_tree]
  | .print _ arg => by simp [Stmt.visits, arg.preorder_tree]
  | .assign _ _ value => by simp [Stmt.visits, value.preorder_tree]
  | .assignElement _ _ index value => by simp [Stmt.visits, index.preorder_tree, value.preorder_tree]

theorem Stmt.preorder_trees : ∀ ss : List Stmt, preorderAll (Stmt.trees ss) = nodes (Stmt.visitsAll ss)
  | [] => rfl
  | s :: rest => by simp [Stmt.visitsAll, s.preorder_tree, Stmt.preorder_trees rest]

end

/-- Lists of parts are listed one after the other. -/
theorem preorderAll_map {α : Type} (tree : α → NodeTree) (visits : α → List Visit)
    (h : ∀ a, (tree a).preorder = nodes (visits a)) (l : List α) :
    preorderAll (l.map tree) = nodes (l.flatMap visits) := by
  rw [preorderAll_eq, List.flatMap_map, nodes_flatMap]
  simp only [h]

theorem preorderAll_append (ts us : List NodeTree) : preorderAll (ts ++ us) = preorderAll ts ++ preorderAll us := by
  rw [preorderAll_eq, preorderAll_eq, preorderAll_eq, List.flatMap_append]

theorem MethodDecl.preorder_tree (m : MethodDecl) : m.tree.preorder = nodes m.visits := by
  have hformals := preorderAll_map VarDecl.tree VarDecl.formalVisits (fun _ => rfl) m.formals
  have hlocals := preorderAll_map VarDecl.tree VarDecl.visits (fun _ => rfl) m.locals
  have hresult : preorderAll [m.result.tree] = nodes m.result.visits := by
    rw [preorderAll, preorderAll, List.append_nil, Expr.preorder_tree]
  rw [MethodDecl.tree, preorder, preorderAll_append, preorderAll_append, preorderAll_append, hformals, hlocals,
    Stmt.preorder_trees, hresult, ← nodes_append, ← nodes_append, ← nodes_append]
  rfl

theorem ClassDecl.preorder_tree (c : ClassDecl) : c.tree.preorder = nodes c.visits := by
  have hfields := preorderAll_map VarDecl.tree VarDecl.visits (fun _ => rfl) c.fields
  have hmethods := preorderAll_map _ _ MethodDecl.preorder_tree c.methods
  rw [ClassDecl.tree, preorder, preorderAll_append, hfields, hmethods, ← nodes_append]
  rfl

/-- A walk over a program meets the nodes of its trees, each before its parts. -/
theorem Program.preorder_trees (p : Program) : preorderAll p.trees = nodes p.visits := by
  have hmain : p.main.tree.preorder = nodes p.main.visits := by
    rw [MainClass.tree, preorder, preorderAll, preorderAll, List.append_nil, Stmt.preorder_tree]
    rfl
  rw [Program.trees, preorderAll, hmain, preorderAll_map _ _ ClassDecl.preorder_tree, ← nodes_append]
  rfl

mutual

/-- Identities are handed out to the nodes of an expression, the parts before the top. -/
theorem Expr.postorder_tree : ∀ e : Expr, e.tree.postorder.map (·.id) = e.ids
  | .binary _ _ left right => by simp [Expr.ids, left.postorder_tree, right.postorder_tree]
  | .element _ array index => by simp [Expr.ids, array.postorder_tree, index.postorder_tree]
  | .length _ array => by simp [Expr.ids, array.postorder_tree]
  | .call _ owner _ args => by simp [Expr.ids, owner.postorder_tree, Expr.postorder_trees args]
  | .newArray _ size => by simp [Expr.ids, size.postorder_tree]
  | .not _ operand => by simp [Expr.ids, operand.postorder_tree]
  | .int .. | .bool .. | .var .. | .this _ | .newObject .. => by simp [Expr.ids]

theorem Expr.postorder_trees : ∀ es : List Expr, (postorderAll (Expr.trees es)).map (·.id) = Expr.idsAll es
  | [] => rfl
  | e :: rest => by simp [Expr.idsAll, e.postorder_tree, Expr.postorder_trees rest]

end

mutual

theorem Stmt.postorder_tree : ∀ s : Stmt, s.tree.postorder.map (·.id) = s.ids
  | .block _ body => by simp [Stmt.ids, Stmt.postorder_trees body]
  | .ifElse _ cond thenBranch elseBranch => by
      simp [Stmt.ids, cond.postorder_tree, thenBranch.postorder_tree, elseBranch.postorder_tree]
  | .loop _ cond body => by simp [Stmt.ids, cond.postorder_tree, body.postorder_tree]
  | .print _ arg => by simp [Stmt.ids, arg.postorder_tree]
  | .assign _ _ value => by simp [Stmt.ids, value.postorder_tree]
  | .assignElement _ _ index value => by simp [Stmt.ids, index.postorder_tree, value.postorder_tree]

theorem Stmt.postorder_trees : ∀ ss : List Stmt, (postorderAll (Stmt.trees ss)).map (·.id) = Stmt.idsAll ss
  | [] => rfl
  | s :: rest => by simp [Stmt.idsAll, s.postorder_tree, Stmt.postorder_trees rest]

end

theorem postorderAll_map {α : Type} (tree : α → NodeTree) (ids : α → List NodeId)
    (h : ∀ a, (tree a).postorder.map (·.id) = ids a) (l : List α) :
    (postorderAll (l.map tree)).map (·.id) = l.flatMap ids := by
  rw [postorderAll_eq, List.flatMap_map, List.map_flatMap]
  simp only [h]

theorem postorderAll_append (ts us : List NodeTree) :
    postorderAll (ts ++ us) = postorderAll ts ++ postorderAll us := by
  rw [postorderAll_eq, postorderAll_eq, postorderAll_eq, List.flatMap_append]

theorem MethodDecl.postorder_tree (m : MethodDecl) : m.tree.postorder.map (·.id) = m.ids := by
  have hvars := postorderAll_map VarDecl.tree VarDecl.ids (fun _ => rfl)
  simp [MethodDecl.tree, MethodDecl.ids, postorderAll_append, hvars, Stmt.postorder_trees, Expr.postorder_tree]

theorem ClassDecl.postorder_tree (c : ClassDecl) : c.tree.postorder.map (·.id) = c.ids := by
  have hfields := postorderAll_map VarDecl.tree VarDecl.ids (fun _ => rfl) c.fields
  have hmethods := postorderAll_map _ _ MethodDecl.postorder_tree c.methods
  simp [ClassDecl.tree, ClassDecl.ids, postorderAll_append, hfields, hmethods]

/-- Identities are handed out to the nodes of a program's trees, the parts before each top. -/
theorem Program.postorder_trees (p : Program) : (postorderAll p.trees).map (·.id) = p.ids := by
  have hclasses := postorderAll_map _ _ ClassDecl.postorder_tree p.classes
  simp [Program.trees, Program.ids, MainClass.tree, MainClass.ids, Stmt.postorder_tree, hclasses]

section
variable {source : String} {p : Program}

/-- Along the nodes of a program that was read, parts first, the identities grow. -/
theorem pairwise_postorder_of_parse (h : parse source = .ok p) :
    ((postorderAll p.trees).map (·.id)).Pairwise (· < ·) := by
  rw [p.postorder_trees, ids_of_parse h]
  exact List.pairwise_lt_range

theorem lastInTree_of_parse (h : parse source = .ok p) {t u : NodeTree} (hu : u ∈ p.trees) (ht : t.Inside u) :
    t.LastInTree := by
  have hsorted := pairwise_postorder_of_parse h
  rw [postorderAll_eq, List.flatMap_def] at hsorted
  have hpart := List.sublist_flatten_of_mem (List.mem_map_of_mem (f := postorder) hu)
  exact ht.lastInTree (hsorted.sublist (hpart.map _))

/-- The identities of a program that was read are the numbers from zero on, each used once. -/
theorem nodeIds_perm_range_of_parse (h : parse source = .ok p) :
    (nodeIds p.visits).Perm (List.range (nodeIds p.visits).length) := by
  rw [p.nodeIds_perm.length_eq, ← ids_of_parse h]
  exact p.nodeIds_perm

theorem mem_nodeIds_of_parse (h : parse source = .ok p) {id : NodeId} :
    id ∈ nodeIds p.visits ↔ id < (nodeIds p.visits).length := by
  rw [(nodeIds_perm_range_of_parse h).mem_iff, List.mem_range]

end

end Demitasse
