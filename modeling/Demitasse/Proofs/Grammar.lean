import Demitasse.Parse.Program

/-! The grammar of MiniJava: which lists of tokens stand for which trees. It says nothing about the nodes of
a tree. Expressions come in levels, from the loosest operators to expressions without any; an operator
takes an expression of its own level on the left and a tighter one on the right. -/

namespace Demitasse

section
variable {α : Type}

/-- Items one after the other. -/
inductive Many (D : List Token → α → Prop) : List Token → List α → Prop where
  | nil : Many D [] []
  | cons {ts us : List Token} {a : α} {as : List α} :
      D ts a → Many D us as → Many D (ts ++ us) (a :: as)

/-- Items with a comma between them. -/
inductive Separated (D : List Token → α → Prop) : List Token → List α → Prop where
  | nil : Separated D [] []
  | one {ts : List Token} {a : α} : D ts a → Separated D ts [a]
  | cons {ts us : List Token} {a b : α} {as : List α} :
      D ts a → Separated D us (b :: as) → Separated D (ts ++ .comma :: us) (a :: b :: as)

end

/-- The words that are no names. -/
def reservedWords : List String :=
  ["class", "extends", "public", "static", "void", "int", "boolean", "if", "else", "while", "return", "true", "false",
    "this", "new"]

/-- Words that may be names. -/
def IsName (name : String) : Prop :=
  name ∉ reservedWords

instance (name : String) : Decidable (IsName name) :=
  inferInstanceAs (Decidable (name ∉ reservedWords))

/-- These are the words that are not read as names. -/
theorem map_spelling_all : Keyword.all.map Keyword.spelling = reservedWords :=
  rfl

theorem isName_iff {name : String} : IsName name ↔ Keyword.ofSpelling? name = none := by
  rw [IsName, ← map_spelling_all, Keyword.ofSpelling?, List.find?_eq_none]
  simp

theorem isIdentifier_word {name : String} : (Token.word name).isIdentifier = true ↔ IsName name := by
  rw [Token.isIdentifier, Option.isNone_iff_eq_none, isName_iff]

/-- A literal is read if it is a number of 32 bits with a sign. -/
theorem maxLiteral_eq : Parser.maxLiteral = 2147483647 :=
  rfl

/-- Kinds of expressions, by what binds their parts together. -/
inductive Level where
  | conjunction | comparison | sum | product | negation | suffixed | primary
deriving DecidableEq

/-- The level that is one tighter. -/
def Level.inner : Level → Level
  | .conjunction => .comparison
  | .comparison => .sum
  | .sum => .product
  | .product => .negation
  | .negation => .suffixed
  | .suffixed | .primary => .primary

/-- The token of an operator. -/
def BinOp.token : BinOp → Token
  | .and => .andAnd
  | .less => .less
  | .add => .plus
  | .sub => .minus
  | .mul => .star

/-- The level of an operator. -/
def BinOp.level : BinOp → Level
  | .and => .conjunction
  | .less => .comparison
  | .add | .sub => .sum
  | .mul => .product

/-- The operator of a level that a token stands for. -/
def Level.operator : Level → Token → Option BinOp
  | .conjunction => Parser.conjunctionOp
  | .comparison => Parser.comparisonOp
  | .sum => Parser.sumOp
  | .product => Parser.productOp
  | .negation | .suffixed | .primary => fun _ => none

theorem Level.operator_eq_some {lvl : Level} {t : Token} {op : BinOp} :
    lvl.operator t = some op ↔ t = op.token ∧ op.level = lvl := by
  constructor
  · intro h
    cases lvl <;> cases t <;> cases h <;> exact ⟨rfl, rfl⟩
  · rintro ⟨rfl, rfl⟩
    cases op <;> rfl

/-- The expressions of a level. -/
inductive IsExpr : Level → List Token → Expr → Prop where
  | lift {lvl : Level} {ts : List Token} {e : Expr} :
      lvl ≠ .primary → IsExpr lvl.inner ts e → IsExpr lvl ts e
  | binary (node : Node) {lvl : Level} {op : BinOp} {ts us : List Token} {left right : Expr} :
      op.level = lvl → IsExpr lvl ts left → IsExpr lvl.inner us right →
      IsExpr lvl (ts ++ op.token :: us) (.binary node op left right)
  | not (node : Node) {ts : List Token} {e : Expr} :
      IsExpr .negation ts e → IsExpr .negation (.bang :: ts) (.not node e)
  | element (node : Node) {ts us : List Token} {array index : Expr} :
      IsExpr .suffixed ts array → IsExpr .conjunction us index →
      IsExpr .suffixed (ts ++ .lbracket :: (us ++ [.rbracket])) (.element node array index)
  | length (node : Node) {ts : List Token} {array : Expr} :
      IsExpr .suffixed ts array → IsExpr .suffixed (ts ++ [.dot, .word "length"]) (.length node array)
  | call (node : Node) {ts us : List Token} {owner : Expr} {method : String} {args : List Expr} :
      IsExpr .suffixed ts owner → IsName method → Separated (IsExpr .conjunction) us args →
      IsExpr .suffixed (ts ++ .dot :: .word method :: .lparen :: (us ++ [.rparen]))
        (.call node owner method args)
  | int (node : Node) {value : Nat} :
      value ≤ 2147483647 → IsExpr .primary [.integer value] (.int node value)
  | bool (node : Node) (value : Bool) :
      IsExpr .primary [.ofKeyword (if value then .kwTrue else .kwFalse)] (.bool node value)
  | var (node : Node) {name : String} : IsName name → IsExpr .primary [.word name] (.var node name)
  | this (node : Node) : IsExpr .primary [.ofKeyword .kwThis] (.this node)
  | newArray (node : Node) {ts : List Token} {size : Expr} :
      IsExpr .conjunction ts size →
      IsExpr .primary (.ofKeyword .kwNew :: .ofKeyword .kwInt :: .lbracket :: (ts ++ [.rbracket]))
        (.newArray node size)
  | newObject (node : Node) {className : String} :
      IsName className →
      IsExpr .primary [.ofKeyword .kwNew, .word className, .lparen, .rparen] (.newObject node className)
  | paren {ts : List Token} {e : Expr} :
      IsExpr .conjunction ts e → IsExpr .primary (.lparen :: (ts ++ [.rparen])) e

/-- Induction over expressions, where the arguments of a call are expressions with the property. -/
theorem IsExpr.induct {motive : ∀ lvl ts e, IsExpr lvl ts e → Prop}
    (lift : ∀ {lvl : Level} {ts e} (hne : lvl ≠ .primary) (h : IsExpr lvl.inner ts e),
      motive _ _ _ h → motive _ _ _ (.lift hne h))
    (binary : ∀ node {lvl} {op : BinOp} {ts us left right} (hop : op.level = lvl) (hl : IsExpr lvl ts left)
      (hr : IsExpr lvl.inner us right), motive _ _ _ hl → motive _ _ _ hr →
      motive _ _ _ (.binary node hop hl hr))
    (not : ∀ node {ts e} (h : IsExpr .negation ts e), motive _ _ _ h → motive _ _ _ (.not node h))
    (element : ∀ node {ts us array index} (ha : IsExpr .suffixed ts array)
      (hi : IsExpr .conjunction us index), motive _ _ _ ha → motive _ _ _ hi →
      motive _ _ _ (.element node ha hi))
    (length : ∀ node {ts array} (h : IsExpr .suffixed ts array),
      motive _ _ _ h → motive _ _ _ (.length node h))
    (call : ∀ node {ts us owner method args} (ho : IsExpr .suffixed ts owner) (hm : IsName method)
      (hargs : Separated (IsExpr .conjunction) us args), motive _ _ _ ho →
      Separated (fun ts e => ∃ h : IsExpr .conjunction ts e, motive _ _ _ h) us args →
      motive _ _ _ (.call node ho hm hargs))
    (int : ∀ node {value} (h : value ≤ 2147483647), motive _ _ _ (.int node h))
    (bool : ∀ node value, motive _ _ _ (.bool node value))
    (var : ∀ node {name} (h : IsName name), motive _ _ _ (.var node h))
    (this : ∀ node, motive _ _ _ (.this node))
    (newArray : ∀ node {ts size} (h : IsExpr .conjunction ts size),
      motive _ _ _ h → motive _ _ _ (.newArray node h))
    (newObject : ∀ node {className} (h : IsName className), motive _ _ _ (.newObject node h))
    (paren : ∀ {ts e} (h : IsExpr .conjunction ts e), motive _ _ _ h → motive _ _ _ (.paren h))
    {lvl : Level} {ts : List Token} {e : Expr} (h : IsExpr lvl ts e) : motive lvl ts e h :=
  @IsExpr.rec motive
    (fun ts es _ => Separated (fun ts e => ∃ h : IsExpr .conjunction ts e, motive _ _ _ h) ts es)
    lift binary not element length call int bool var this newArray newObject paren
    .nil (fun h ih => .one ⟨h, ih⟩) (fun h _ ih iht => .cons ⟨h, ih⟩ iht) lvl ts e h

/-- Statements. -/
inductive IsStmt : List Token → Stmt → Prop where
  | block (node : Node) {ts : List Token} {body : List Stmt} :
      Many IsStmt ts body → IsStmt (.lbrace :: (ts ++ [.rbrace])) (.block node body)
  | ifElse (node : Node) {ts us vs : List Token} {cond : Expr} {thenBranch elseBranch : Stmt} :
      IsExpr .conjunction ts cond → IsStmt us thenBranch → IsStmt vs elseBranch →
      IsStmt (.ofKeyword .kwIf :: .lparen :: (ts ++ .rparen :: (us ++ .ofKeyword .kwElse :: vs)))
        (.ifElse node cond thenBranch elseBranch)
  | loop (node : Node) {ts us : List Token} {cond : Expr} {body : Stmt} :
      IsExpr .conjunction ts cond → IsStmt us body →
      IsStmt (.ofKeyword .kwWhile :: .lparen :: (ts ++ .rparen :: us)) (.loop node cond body)
  | print (node : Node) {ts : List Token} {arg : Expr} :
      IsExpr .conjunction ts arg →
      IsStmt (.println :: .lparen :: (ts ++ [.rparen, .semicolon])) (.print node arg)
  | assign (node : Node) {ts : List Token} {target : String} {value : Expr} :
      IsName target → IsExpr .conjunction ts value →
      IsStmt (.word target :: .assign :: (ts ++ [.semicolon])) (.assign node target value)
  | assignElement (node : Node) {ts us : List Token} {target : String} {index value : Expr} :
      IsName target → IsExpr .conjunction ts index → IsExpr .conjunction us value →
      IsStmt (.word target :: .lbracket :: (ts ++ .rbracket :: .assign :: (us ++ [.semicolon])))
        (.assignElement node target index value)

/-- Induction over statements, where the statements of a block have the property. -/
theorem IsStmt.induct {motive : ∀ ts s, IsStmt ts s → Prop}
    (block : ∀ node {ts body} (h : Many IsStmt ts body),
      Many (fun ts s => ∃ h : IsStmt ts s, motive _ _ h) ts body → motive _ _ (.block node h))
    (ifElse : ∀ node {ts us vs cond thenBranch elseBranch} (hc : IsExpr .conjunction ts cond)
      (ht : IsStmt us thenBranch) (he : IsStmt vs elseBranch), motive _ _ ht → motive _ _ he →
      motive _ _ (.ifElse node hc ht he))
    (loop : ∀ node {ts us cond body} (hc : IsExpr .conjunction ts cond) (hb : IsStmt us body),
      motive _ _ hb → motive _ _ (.loop node hc hb))
    (print : ∀ node {ts arg} (h : IsExpr .conjunction ts arg), motive _ _ (.print node h))
    (assign : ∀ node {ts target value} (hn : IsName target) (hv : IsExpr .conjunction ts value),
      motive _ _ (.assign node hn hv))
    (assignElement : ∀ node {ts us target index value} (hn : IsName target)
      (hi : IsExpr .conjunction ts index) (hv : IsExpr .conjunction us value),
      motive _ _ (.assignElement node hn hi hv))
    {ts : List Token} {s : Stmt} (h : IsStmt ts s) : motive ts s h :=
  @IsStmt.rec motive (fun ts body _ => Many (fun ts s => ∃ h : IsStmt ts s, motive _ _ h) ts body)
    block ifElse loop print assign assignElement
    .nil (fun h _ ih iht => .cons ⟨h, ih⟩ iht) ts s h

/-- Types. -/
inductive IsType : List Token → Ty → Prop where
  | int : IsType [.ofKeyword .kwInt] .int
  | intArray : IsType [.ofKeyword .kwInt, .lbracket, .rbracket] .intArray
  | boolean : IsType [.ofKeyword .kwBoolean] .boolean
  | object {className : String} : IsName className → IsType [.word className] (.object className)

/-- Parameters. -/
inductive IsFormal : List Token → VarDecl → Prop where
  | mk {ts : List Token} {v : VarDecl} :
      IsType ts v.ty → IsName v.name → IsFormal (ts ++ [.word v.name]) v

/-- Fields and local variables. -/
inductive IsVarDecl : List Token → VarDecl → Prop where
  | mk {ts : List Token} {v : VarDecl} :
      IsType ts v.ty → IsName v.name → IsVarDecl (ts ++ [.word v.name, .semicolon]) v

/-- Methods; the word in front may be left out. -/
inductive IsMethod : List Token → MethodDecl → Prop where
  | mk {access ts fs vs bs rs : List Token} {m : MethodDecl} :
      access = [] ∨ access = [.ofKeyword .kwPublic] → IsType ts m.returnType → IsName m.name →
      Separated IsFormal fs m.formals → Many IsVarDecl vs m.locals → Many IsStmt bs m.body →
      IsExpr .conjunction rs m.result →
      IsMethod (access ++ (ts ++ .word m.name :: .lparen :: (fs ++ .rparen :: .lbrace ::
        (vs ++ (bs ++ .ofKeyword .kwReturn :: (rs ++ [.semicolon, .rbrace])))))) m

/-- What follows the name of a class. -/
inductive IsExtension : List Token → Option String → Prop where
  | none : IsExtension [] none
  | some {superName : String} :
      IsName superName → IsExtension [.ofKeyword .kwExtends, .word superName] (some superName)

/-- Classes, fields before methods. -/
inductive IsClass : List Token → ClassDecl → Prop where
  | mk {ts fs ms : List Token} {c : ClassDecl} :
      IsName c.name → IsExtension ts c.superName → Many IsVarDecl fs c.fields →
      Many IsMethod ms c.methods →
      IsClass (.ofKeyword .kwClass :: .word c.name :: (ts ++ .lbrace :: (fs ++ (ms ++ [.rbrace])))) c

/-- The main class, with one statement in its one method. -/
inductive IsMain : List Token → MainClass → Prop where
  | mk {ts : List Token} {m : MainClass} :
      IsName m.name → IsName m.argsName → IsStmt ts m.body →
      IsMain (.ofKeyword .kwClass :: .word m.name :: .lbrace :: .ofKeyword .kwPublic :: .ofKeyword .kwStatic ::
        .ofKeyword .kwVoid :: .word "main" :: .lparen :: .word "String" :: .lbracket :: .rbracket ::
        .word m.argsName :: .rparen :: .lbrace :: (ts ++ [.rbrace, .rbrace])) m

/-- Programs. -/
inductive IsProgram : List Token → Program → Prop where
  | mk {ts us : List Token} {p : Program} :
      IsMain ts p.main → Many IsClass us p.classes → IsProgram (ts ++ us) p

end Demitasse
