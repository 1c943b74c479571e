import Demitasse.Proofs.Numbering
import Demitasse.Program.Render

/-! Trees up to their nodes. Two trees of one shape whose nodes got the same identities, in the order in which
they are handed out, differ in their spans only. -/

namespace Demitasse

mutual

/-- Replaces the nodes of an expression. -/
def Expr.mapNodes (f : Node → Node) : Expr → Expr
  | .binary node op left right => .binary (f node) op (left.mapNodes f) (right.mapNodes f)
  | .element node array index => .element (f node) (array.mapNodes f) (index.mapNodes f)
  | .length node array => .length (f node) (array.mapNodes f)
  | .call node owner method args => .call (f node) (owner.mapNodes f) method (Expr.mapNodesAll f args)
  | .int node value => .int (f node) value
  | .bool node value => .bool (f node) value
  | .var node name => .var (f node) name
  | .this node => .this (f node)
  | .newArray node size => .newArray (f node) (size.mapNodes f)
  | .newObject node className => .newObject (f node) className
  | .not node operand => .not (f node) (operand.mapNodes f)

def Expr.mapNodesAll (f : Node → Node) : List Expr → List Expr
  | [] => []
  | e :: rest => e.mapNodes f :: Expr.mapNodesAll f rest

end

mutual

def Stmt.mapNodes (f : Node → Node) : Stmt → Stmt
  | .block node body => .block (f node) (Stmt.mapNodesAll f body)
  | .ifElse node cond thenBranch elseBranch =>
    .ifElse (f node) (cond.mapNodes f) (thenBranch.mapNodes f) (elseBranch.mapNodes f)
  | .loop node cond body => .loop (f node) (cond.mapNodes f) (body.mapNodes f)
  | .print node arg => .print (f node) (arg.mapNodes f)
  | .assign node target value => .assign (f node) target (value.mapNodes f)
  | .assignElement node target index value =>
    .assignElement (f node) target (index.mapNodes f) (value.mapNodes f)

def Stmt.mapNodesAll (f : Node → Node) : List Stmt → List Stmt
  | [] => []
  | s :: rest => s.mapNodes f :: Stmt.mapNodesAll f rest

end

section
variable (f : Node → Node)

def VarDecl.mapNodes (v : VarDecl) : VarDecl :=
  { v with node := f v.node }

def MethodDecl.mapNodes (m : MethodDecl) : MethodDecl where
  node := f m.node
  returnType := m.returnType
  name := m.name
  formals := m.formals.map (VarDecl.mapNodes f)
  locals := m.locals.map (VarDecl.mapNodes f)
  body := Stmt.mapNodesAll f m.body
  result := m.result.mapNodes f

def ClassDecl.mapNodes (c : ClassDecl) : ClassDecl where
  node := f c.node
  name := c.name
  superName := c.superName
  fields := c.fields.map (VarDecl.mapNodes f)
  methods := c.methods.map (MethodDecl.mapNodes f)

def MainClass.mapNodes (c : MainClass) : MainClass where
  node := f c.node
  name := c.name
  argsName := c.argsName
  body := c.body.mapNodes f

/-- Replaces the nodes of a program, and leaves its span out. -/
def Program.mapNodes (p : Program) : Program where
  main := p.main.mapNodes f
  classes := p.classes.map (ClassDecl.mapNodes f)
  span := .origin

theorem Expr.mapNodesAll_eq (es : List Expr) : Expr.mapNodesAll f es = es.map (Expr.mapNodes f) := by
  induction es with
  | nil => rfl
  | cons e rest ih => rw [Expr.mapNodesAll, ih, List.map_cons]

theorem Stmt.mapNodesAll_eq (ss : List Stmt) : Stmt.mapNodesAll f ss = ss.map (Stmt.mapNodes f) := by
  induction ss with
  | nil => rfl
  | cons s rest ih => rw [Stmt.mapNodesAll, ih, List.map_cons]

end

section
variable (f g : Node → Node)

mutual

theorem Expr.mapNodes_mapNodes : ∀ e : Expr, (e.mapNodes f).mapNodes g = e.mapNodes fun node => g (f node)
  | .binary _ _ left right => by
      rw [mapNodes, mapNodes, mapNodes, left.mapNodes_mapNodes, right.mapNodes_mapNodes]
  | .element _ array index => by
      rw [mapNodes, mapNodes, mapNodes, array.mapNodes_mapNodes, index.mapNodes_mapNodes]
  | .length _ array => by
      rw [mapNodes, mapNodes, mapNodes, array.mapNodes_mapNodes]
  | .call _ owner _ args => by
      rw [mapNodes, mapNodes, mapNodes, owner.mapNodes_mapNodes, Expr.mapNodesAll_mapNodesAll args]
  | .newArray _ size => by
      rw [mapNodes, mapNodes, mapNodes, size.mapNodes_mapNodes]
  | .not _ operand => by
      rw [mapNodes, mapNodes, mapNodes, operand.mapNodes_mapNodes]
  | .int _ _ | .bool _ _ | .var _ _ | .this _ | .newObject _ _ => rfl

theorem Expr.mapNodesAll_mapNodesAll : ∀ es : List Expr,
    Expr.mapNodesAll g (Expr.mapNodesAll f es) = Expr.mapNodesAll (fun node => g (f node)) es
  | [] => rfl
  | e :: rest => by
      rw [mapNodesAll, mapNodesAll, mapNodesAll, e.mapNodes_mapNodes, Expr.mapNodesAll_mapNodesAll rest]

end

mutual

theorem Stmt.mapNodes_mapNodes : ∀ s : Stmt, (s.mapNodes f).mapNodes g = s.mapNodes fun node => g (f node)
  | .block _ body => by
      rw [mapNodes, mapNodes, mapNodes, Stmt.mapNodesAll_mapNodesAll body]
  | .ifElse _ cond thenBranch elseBranch => by
      rw [mapNodes, mapNodes, mapNodes, cond.mapNodes_mapNodes, thenBranch.mapNodes_mapNodes,
        elseBranch.mapNodes_mapNodes]
  | .loop _ cond body => by
      rw [mapNodes, mapNodes, mapNodes, cond.mapNodes_mapNodes, body.mapNodes_mapNodes]
  | .print _ arg => by
      rw [mapNodes, mapNodes, mapNodes, arg.mapNodes_mapNodes]
  | .assign _ _ value => by
      rw [mapNodes, mapNodes, mapNodes, value.mapNodes_mapNodes]
  | .assignElement _ _ index value => by
      rw [mapNodes, mapNodes, mapNodes, index.mapNodes_mapNodes, value.mapNodes_mapNodes]

theorem Stmt.mapNodesAll_mapNodesAll : ∀ ss : List Stmt,
    Stmt.mapNodesAll g (Stmt.mapNodesAll f ss) = Stmt.mapNodesAll (fun node => g (f node)) ss
  | [] => rfl
  | s :: rest => by
      rw [mapNodesAll, mapNodesAll, mapNodesAll, s.mapNodes_mapNodes, Stmt.mapNodesAll_mapNodesAll rest]

end

theorem VarDecl.mapNodes_mapNodes (v : VarDecl) : (v.mapNodes f).mapNodes g = v.mapNodes fun node => g (f node) :=
  rfl

theorem MethodDecl.mapNodes_mapNodes (m : MethodDecl) :
    (m.mapNodes f).mapNodes g = m.mapNodes fun node => g (f node) := by
  simp only [mapNodes, List.map_map, Function.comp_def, VarDecl.mapNodes_mapNodes, Stmt.mapNodesAll_mapNodesAll,
    Expr.mapNodes_mapNodes]

theorem ClassDecl.mapNodes_mapNodes (c : ClassDecl) :
    (c.mapNodes f).mapNodes g = c.mapNodes fun node => g (f node) := by
  simp only [mapNodes, List.map_map, Function.comp_def, VarDecl.mapNodes_mapNodes, MethodDecl.mapNodes_mapNodes]

theorem Program.mapNodes_mapNodes (p : Program) :
    (p.mapNodes f).mapNodes g = p.mapNodes fun node => g (f node) := by
  simp only [mapNodes, MainClass.mapNodes, List.map_map, Function.comp_def, Stmt.mapNodes_mapNodes,
    ClassDecl.mapNodes_mapNodes]

end

/-- The one node of all shapes. -/
def Node.blank (_ : Node) : Node :=
  ⟨0, .origin⟩

/-- A node without its span. -/
def Node.withoutSpan (node : Node) : Node :=
  ⟨node.id, .origin⟩

/-- A program without its spans. -/
def Program.withoutSpans (p : Program) : Program :=
  p.mapNodes Node.withoutSpan

theorem Expr.renderArgs_cons (e e' : Expr) (rest : List Expr) :
    Expr.renderArgs (e :: e' :: rest) = e.render ++ ", " ++ Expr.renderArgs (e' :: rest) := by
  rw [Expr.renderArgs]
  simp

section
variable (f : Node → Node)

mutual

theorem Expr.render_mapNodes : ∀ e : Expr, (e.mapNodes f).render = e.render
  | .binary _ _ left right => by
      rw [mapNodes, render, render, left.render_mapNodes, right.render_mapNodes]
  | .element _ array index => by
      rw [mapNodes, render, render, array.render_mapNodes, index.render_mapNodes]
  | .length _ array => by
      rw [mapNodes, render, render, array.render_mapNodes]
  | .call _ owner _ args => by
      rw [mapNodes, render, render, owner.render_mapNodes, Expr.renderArgs_mapNodes args]
  | .newArray _ size => by
      rw [mapNodes, render, render, size.render_mapNodes]
  | .not _ operand => by
      rw [mapNodes, render, render, operand.render_mapNodes]
  | .int _ _ | .bool _ _ | .var _ _ | .this _ | .newObject _ _ => rfl

theorem Expr.renderArgs_mapNodes :
    ∀ args : List Expr, Expr.renderArgs (Expr.mapNodesAll f args) = Expr.renderArgs args
  | [] => rfl
  | [e] => e.render_mapNodes
  | e :: e' :: rest => by
      have ih := Expr.renderArgs_mapNodes (e' :: rest)
      rw [mapNodesAll] at ih
      rw [mapNodesAll, mapNodesAll, renderArgs_cons, renderArgs_cons, e.render_mapNodes, ih]

end

theorem Stmt.isBlock_mapNodes (s : Stmt) : (s.mapNodes f).isBlock = s.isBlock := by
  cases s <;> rfl

mutual

theorem Stmt.render_mapNodes : ∀ (s : Stmt) (depth : Nat), (s.mapNodes f).render depth = s.render depth
  | .block _ body, depth => by
      rw [mapNodes, render, render, Stmt.renderAll_mapNodes body]
  | .ifElse _ cond thenBranch elseBranch, depth => by
      rw [mapNodes, render, render, cond.render_mapNodes, isBlock_mapNodes, isBlock_mapNodes,
        thenBranch.render_mapNodes, elseBranch.render_mapNodes]
  | .loop _ cond body, depth => by
      rw [mapNodes, render, render, cond.render_mapNodes, isBlock_mapNodes, body.render_mapNodes]
  | .print _ arg, depth => by
      rw [mapNodes, render, render, arg.render_mapNodes]
  | .assign _ _ value, depth => by
      rw [mapNodes, render, render, value.render_mapNodes]
  | .assignElement _ _ index value, depth => by
      rw [mapNodes, render, render, index.render_mapNodes, value.render_mapNodes]

theorem Stmt.renderAll_mapNodes :
    ∀ (ss : List Stmt) (depth : Nat), Stmt.renderAll depth (Stmt.mapNodesAll f ss) = Stmt.renderAll depth ss
  | [], _ => rfl
  | s :: rest, depth => by
      rw [mapNodesAll, renderAll, renderAll, s.render_mapNodes, Stmt.renderAll_mapNodes rest]

end

theorem VarDecl.binding_mapNodes (v : VarDecl) : (v.mapNodes f).binding = v.binding :=
  rfl

theorem VarDecl.render_mapNodes (v : VarDecl) (depth : Nat) : (v.mapNodes f).render depth = v.render depth :=
  rfl

theorem MethodDecl.render_mapNodes (m : MethodDecl) (depth : Nat) :
    (m.mapNodes f).render depth = m.render depth := by
  simp only [mapNodes, render, List.map_map, Function.comp_def, VarDecl.binding_mapNodes,
    VarDecl.render_mapNodes, Stmt.renderAll_mapNodes, Expr.render_mapNodes]

theorem ClassDecl.render_mapNodes (c : ClassDecl) (depth : Nat) :
    (c.mapNodes f).render depth = c.render depth := by
  simp only [mapNodes, render, extension, List.map_map, Function.comp_def, VarDecl.render_mapNodes,
    MethodDecl.render_mapNodes]

theorem MainClass.render_mapNodes (c : MainClass) (depth : Nat) :
    (c.mapNodes f).render depth = c.render depth := by
  simp only [mapNodes, render, Stmt.render_mapNodes]

theorem Program.render_mapNodes (p : Program) : (p.mapNodes f).render = p.render := by
  simp only [mapNodes, render, List.map_map, Function.comp_def, MainClass.render_mapNodes,
    ClassDecl.render_mapNodes]

end

/-- The two lists are equally long, and where they are equal `P` holds. -/
def Pins (ids ids' : List NodeId) (P : Prop) : Prop :=
  ids.length = ids'.length ∧ (ids = ids' → P)

namespace Pins

variable {ids ids' more more' : List NodeId} {P Q : Prop}

theorem append (h : Pins ids ids' P) (h' : Pins more more' Q) : Pins (ids ++ more) (ids' ++ more') (P ∧ Q) := by
  refine ⟨by rw [List.length_append, List.length_append, h.1, h'.1], fun heq => ?_⟩
  obtain ⟨hids, hmore⟩ := List.append_inj heq h.1
  exact ⟨h.2 hids, h'.2 hmore⟩

theorem imp (h : Pins ids ids' P) (himp : P → Q) : Pins ids ids' Q :=
  ⟨h.1, fun heq => himp (h.2 heq)⟩

theorem node (node node' : Node) : Pins [node.id] [node'.id] (node.withoutSpan = node'.withoutSpan) := by
  refine ⟨rfl, fun heq => ?_⟩
  rw [Node.withoutSpan, (List.cons.inj heq).1, Node.withoutSpan]

end Pins

section
variable {α : Type}

/-- A tree of the shape of `a` differs from `a` in its spans only if it has the same identities. -/
def Settled (map : (Node → Node) → α → α) (ids : α → List NodeId) (a : α) : Prop :=
  ∀ b, map Node.blank a = map Node.blank b →
    Pins (ids a) (ids b) (map Node.withoutSpan a = map Node.withoutSpan b)

theorem Settled.list {map : (Node → Node) → α → α} {ids : α → List NodeId} :
    ∀ {as bs : List α}, (∀ a ∈ as, Settled map ids a) → as.map (map Node.blank) = bs.map (map Node.blank) →
      Pins (as.flatMap ids) (bs.flatMap ids) (as.map (map Node.withoutSpan) = bs.map (map Node.withoutSpan))
  | [], [], _, _ => ⟨rfl, fun _ => rfl⟩
  | a :: as, b :: bs, h, hshape => by
      obtain ⟨ha, has⟩ := List.cons.inj hshape
      have hhead := h a List.mem_cons_self b ha
      have htail := Settled.list (fun a' ha' => h a' (List.mem_cons_of_mem a ha')) has
      exact (hhead.append htail).imp fun heq => congrArg₂ List.cons heq.1 heq.2

end

mutual

theorem Expr.settled : ∀ e : Expr, Settled Expr.mapNodes Expr.ids e
  | .binary node op left right => by
      intro b h
      cases b <;> simp only [mapNodes, reduceCtorEq, Expr.binary.injEq] at h
      obtain ⟨-, rfl, hleft, hright⟩ := h
      refine (((left.settled _ hleft).append (right.settled _ hright)).append (Pins.node ..)).imp ?_
      rintro ⟨⟨hleft, hright⟩, hnode⟩
      rw [mapNodes, mapNodes, hleft, hright, hnode]
  | .element node array index => by
      intro b h
      cases b <;> simp only [mapNodes, reduceCtorEq, Expr.element.injEq] at h
      obtain ⟨-, harray, hindex⟩ := h
      refine (((array.settled _ harray).append (index.settled _ hindex)).append (Pins.node ..)).imp ?_
      rintro ⟨⟨harray, hindex⟩, hnode⟩
      rw [mapNodes, mapNodes, harray, hindex, hnode]
  | .length node array => by
      intro b h
      cases b <;> simp only [mapNodes, reduceCtorEq, Expr.length.injEq] at h
      obtain ⟨-, harray⟩ := h
      refine ((array.settled _ harray).append (Pins.node ..)).imp ?_
      rintro ⟨harray, hnode⟩
      rw [mapNodes, mapNodes, harray, hnode]
  | .call node owner method args => by
      intro b h
      cases b <;> simp only [mapNodes, reduceCtorEq, Expr.call.injEq, mapNodesAll_eq] at h
      obtain ⟨-, howner, rfl, hargs⟩ := h
      have hlist := Settled.list (Expr.settled_of_mem args) hargs
      rw [← Expr.idsAll_eq, ← Expr.idsAll_eq] at hlist
      refine (((owner.settled _ howner).append hlist).append (Pins.node ..)).imp ?_
      rintro ⟨⟨howner, hargs⟩, hnode⟩
      rw [mapNodes, mapNodes, mapNodesAll_eq, mapNodesAll_eq, howner, hargs, hnode]
  | .newArray node size => by
      intro b h
      cases b <;> simp only [mapNodes, reduceCtorEq, Expr.newArray.injEq] at h
      obtain ⟨-, hsize⟩ := h
      refine ((size.settled _ hsize).append (Pins.node ..)).imp ?_
      rintro ⟨hsize, hnode⟩
      rw [mapNodes, mapNodes, hsize, hnode]
  | .not node operand => by
      intro b h
      cases b <;> simp only [mapNodes, reduceCtorEq, Expr.not.injEq] at h
      obtain ⟨-, hoperand⟩ := h
      refine ((operand.settled _ hoperand).append (Pins.node ..)).imp ?_
      rintro ⟨hoperand, hnode⟩
      rw [mapNodes, mapNodes, hoperand, hnode]
  | .int node value | .bool node value | .var node value | .this node | .newObject node value => by
      intro b h
      cases b <;> cases h
      exact (Pins.node ..).imp fun hnode => by rw [mapNodes, mapNodes, hnode]

theorem Expr.settled_of_mem : ∀ es : List Expr, ∀ e ∈ es, Settled Expr.mapNodes Expr.ids e
  | [], _, h => nomatch h
  | e :: rest, e', h => by
      rcases List.mem_cons.mp h with heq | h
      · rw [heq]
        exact e.settled
      · exact Expr.settled_of_mem rest e' h

end

mutual

theorem Stmt.settled : ∀ s : Stmt, Settled Stmt.mapNodes Stmt.ids s
  | .block node body => by
      intro b h
      cases b <;> simp only [mapNodes, reduceCtorEq, Stmt.block.injEq, mapNodesAll_eq] at h
      obtain ⟨-, hbody⟩ := h
      have hlist := Settled.list (Stmt.settled_of_mem body) hbody
      rw [← Stmt.idsAll_eq, ← Stmt.idsAll_eq] at hlist
      refine (hlist.append (Pins.node ..)).imp ?_
      rintro ⟨hbody, hnode⟩
      rw [mapNodes, mapNodes, mapNodesAll_eq, mapNodesAll_eq, hbody, hnode]
  | .ifElse node cond thenBranch elseBranch => by
      intro b h
      cases b <;> simp only [mapNodes, reduceCtorEq, Stmt.ifElse.injEq] at h
      obtain ⟨-, hcond, hthen, helse⟩ := h
      refine ((((cond.settled _ hcond).append (thenBranch.settled _ hthen)).append
        (elseBranch.settled _ helse)).append (Pins.node ..)).imp ?_
      rintro ⟨⟨⟨hcond, hthen⟩, helse⟩, hnode⟩
      rw [mapNodes, mapNodes, hcond, hthen, helse, hnode]
  | .loop node cond body => by
      intro b h
      cases b <;> simp only [mapNodes, reduceCtorEq, Stmt.loop.injEq] at h
      obtain ⟨-, hcond, hbody⟩ := h
      refine (((cond.settled _ hcond).append (body.settled _ hbody)).append (Pins.node ..)).imp ?_
      rintro ⟨⟨hcond, hbody⟩, hnode⟩
      rw [mapNodes, mapNodes, hcond, hbody, hnode]
  | .print node arg => by
      intro b h
      cases b <;> simp only [mapNodes, reduceCtorEq, Stmt.print.injEq] at h
      obtain ⟨-, harg⟩ := h
      refine ((arg.settled _ harg).append (Pins.node ..)).imp ?_
      rintro ⟨harg, hnode⟩
      rw [mapNodes, mapNodes, harg, hnode]
  | .assign node target value => by
      intro b h
      cases b <;> simp only [mapNodes, reduceCtorEq, Stmt.assign.injEq] at h
      obtain ⟨-, rfl, hvalue⟩ := h
      refine ((value.settled _ hvalue).append (Pins.node ..)).imp ?_
      rintro ⟨hvalue, hnode⟩
      rw [mapNodes, mapNodes, hvalue, hnode]
  | .assignElement node target index value => by
      intro b h
      cases b <;> simp only [mapNodes, reduceCtorEq, Stmt.assignElement.injEq] at h
      obtain ⟨-, rfl, hindex, hvalue⟩ := h
      refine (((index.settled _ hindex).append (value.settled _ hvalue)).append (Pins.node ..)).imp ?_
      rintro ⟨⟨hindex, hvalue⟩, hnode⟩
      rw [mapNodes, mapNodes, hindex, hvalue, hnode]

theorem Stmt.settled_of_mem : ∀ ss : List Stmt, ∀ s ∈ ss, Settled Stmt.mapNodes Stmt.ids s
  | [], _, h => nomatch h
  | s :: rest, s', h => by
      rcases List.mem_cons.mp h with heq | h
      · rw [heq]
        exact s.settled
      · exact Stmt.settled_of_mem rest s' h

end

theorem VarDecl.settled (v : VarDecl) : Settled VarDecl.mapNodes VarDecl.ids v := by
  intro w h
  simp only [mapNodes, VarDecl.mk.injEq] at h
  obtain ⟨-, hty, hname⟩ := h
  exact (Pins.node ..).imp fun hnode => by rw [mapNodes, mapNodes, hnode, hty, hname]

theorem MethodDecl.settled (m : MethodDecl) : Settled MethodDecl.mapNodes MethodDecl.ids m := by
  intro m' h
  simp only [mapNodes, MethodDecl.mk.injEq, Stmt.mapNodesAll_eq] at h
  obtain ⟨-, htype, hname, hformals, hlocals, hbody, hresult⟩ := h
  have hformals := Settled.list (fun v _ => VarDecl.settled v) hformals
  have hlocals := Settled.list (fun v _ => VarDecl.settled v) hlocals
  have hbody := Settled.list (fun s _ => Stmt.settled s) hbody
  rw [← Stmt.idsAll_eq, ← Stmt.idsAll_eq] at hbody
  refine ((((hformals.append hlocals).append hbody).append (m.result.settled _ hresult)).append
    (Pins.node ..)).imp ?_
  rintro ⟨⟨⟨⟨hformals, hlocals⟩, hbody⟩, hresult⟩, hnode⟩
  simp only [mapNodes, Stmt.mapNodesAll_eq, hnode, htype, hname, hformals, hlocals, hbody, hresult]

theorem ClassDecl.settled (c : ClassDecl) : Settled ClassDecl.mapNodes ClassDecl.ids c := by
  intro c' h
  simp only [mapNodes, ClassDecl.mk.injEq] at h
  obtain ⟨-, hname, hsuper, hfields, hmethods⟩ := h
  have hfields := Settled.list (fun v _ => VarDecl.settled v) hfields
  have hmethods := Settled.list (fun m _ => MethodDecl.settled m) hmethods
  refine ((hfields.append hmethods).append (Pins.node ..)).imp ?_
  rintro ⟨⟨hfields, hmethods⟩, hnode⟩
  simp only [mapNodes, hnode, hname, hsuper, hfields, hmethods]

theorem MainClass.settled (c : MainClass) : Settled MainClass.mapNodes MainClass.ids c := by
  intro c' h
  simp only [mapNodes, MainClass.mk.injEq] at h
  obtain ⟨-, hname, hargs, hbody⟩ := h
  refine ((c.body.settled _ hbody).append (Pins.node ..)).imp ?_
  rintro ⟨hbody, hnode⟩
  simp only [mapNodes, hnode, hname, hargs, hbody]

theorem Program.settled (p : Program) : Settled Program.mapNodes Program.ids p := by
  intro p' h
  simp only [mapNodes, Program.mk.injEq] at h
  obtain ⟨hmain, hclasses, -⟩ := h
  refine ((p.main.settled _ hmain).append (Settled.list (fun c _ => ClassDecl.settled c) hclasses)).imp ?_
  rintro ⟨hmain, hclasses⟩
  simp only [mapNodes, hmain, hclasses]

end Demitasse
