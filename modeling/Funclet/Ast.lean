import Funclet.Pos

/-!
# Syntax trees

* `Expr`, `Binding`: expressions, and the bindings of a `VAR` list.
* `Stmt`: statements.
* `Prototype`, `Function`: a function's name and parameters, and the statement that is its body.

Text is an expression, but the grammar has it only where a `PRINT` lists it.

Every node knows the place of its first token, except that a binary expression knows the place of its
operator and an expression in parentheses that of what is inside.
-/

namespace Funclet

mutual

/-- An expression. A name followed by arguments is a call; the operators are those of the operator
table in force, and assignment is the operator `=`. -/
inductive Expr where
  | number (pos : Pos) (value : Float)
  | text (pos : Pos) (value : String)
  | var (pos : Pos) (name : String)
  | unary (pos : Pos) (op : Char) (operand : Expr)
  | binary (pos : Pos) (op : Char) (lhs rhs : Expr)
  | call (pos : Pos) (callee : String) (args : List Expr)
  /-- `VAR a = 1, b body`: bindings over a single expression. -/
  | letIn (pos : Pos) (bindings : List Binding) (body : Expr)

/-- A name in a `VAR` list, with its initial value if it has one. -/
structure Binding where
  pos : Pos
  name : String
  init : Option Expr

end

instance : Inhabited Expr := ⟨.number default 0⟩
instance : Inhabited Binding := ⟨⟨default, default, none⟩⟩

def Expr.pos : Expr → Pos
  | number p _ | text p _ | var p _ | unary p _ _ | binary p _ _ _ | call p _ _ | letIn p _ _ => p

inductive Stmt where
  /-- `name := value` -/
  | assign (pos : Pos) (name : String) (value : Expr)
  | ret (pos : Pos) (value : Expr)
  | print (pos : Pos) (items : List Expr)
  /-- `CONTINUE`: go on with the test of the innermost loop. -/
  | again (pos : Pos)
  /-- `IF test THEN yes FI` or `IF test THEN yes ELSE no FI` -/
  | cond (pos : Pos) (test : Expr) (yes : Stmt) (no : Option Stmt)
  /-- `WHILE test DO body DONE` -/
  | loop (pos : Pos) (test : Expr) (body : Stmt)
  /-- A block in braces: the bindings of its leading `VAR` lists, then statements. -/
  | block (pos : Pos) (declared : List Binding) (body : List Stmt)
  /-- `VAR a = 1, b body`: bindings over a single statement, other than at the head of a block. -/
  | letIn (pos : Pos) (bindings : List Binding) (body : Stmt)

instance : Inhabited Stmt := ⟨.again default⟩

def Stmt.pos : Stmt → Pos
  | assign p _ _ | ret p _ | print p _ | again p | cond p _ _ _ | loop p _ _ | block p _ _
  | letIn p _ _ => p

/-- What a function is for: to be called by its name, or to give an operator its meaning. -/
inductive FunctionKind where
  | plain
  | unary (op : Char)
  | binary (op : Char) (precedence : Nat)
deriving DecidableEq, Repr, Inhabited

/-- The name of the function behind a unary operator. -/
def unaryName (op : Char) : String := "unary" ++ op.toString

/-- The name of the function behind a binary operator. -/
def binaryName (op : Char) : String := "binary" ++ op.toString

/-- The signature of a function. -/
structure Prototype where
  pos : Pos
  name : String
  params : List String
  kind : FunctionKind
deriving DecidableEq, Repr, Inhabited

namespace Prototype

def arity (p : Prototype) : Nat := p.params.length

/-- The signature that a call with `arity` arguments suggests. -/
def placeholder (pos : Pos) (name : String) (arity : Nat) : Prototype where
  pos := pos
  name := name
  params := (List.range arity).map fun i => "arg" ++ toString i
  kind := .plain

@[simp] theorem arity_placeholder (pos : Pos) (name : String) (n : Nat) :
    (placeholder pos name n).arity = n := by
  simp [arity, placeholder]

end Prototype

structure Function where
  proto : Prototype
  body : Stmt
deriving Inhabited

end Funclet
