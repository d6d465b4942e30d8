import Funclet.Ast
import Funclet.Machine
import Funclet.Proofs.Scopes

/-!
# Evaluating syntax trees

The meaning of a source text, without code: expressions have values, statements say how control goes on, and functions
are looked up by name.

* `Stop` : why there is no value; `State` : the variables in scope and what has been printed;
* `Flow` : how control goes on behind a statement;
* `evalExpr`, `evalStmt` : the meaning of trees, where `call` gives the meaning of functions;
* `callFunction fs n` : the meaning of the functions `fs`, where `n` bounds the passes through every loop and the
  nesting of calls;
* `Evaluates` : a function ends with an outcome, whatever bound that takes.
-/

namespace Funclet

namespace Frames

variable {α : Type}

/-- A frame after an assignment to a name that it binds. -/
def put (name : String) (a : α) : List (String × α) → List (String × α)
  | [] => []
  | (n, b) :: f => if n = name then (n, a) :: f else (n, b) :: put name a f

/-- An assignment to a name, in the innermost frame that binds it. -/
def assign (name : String) (a : α) : Frames α → Frames α
  | [] => []
  | f :: Γ => if (f.lookup name).isSome then put name a f :: Γ else f :: assign name a Γ

def declare (name : String) (a : α) : Frames α → Frames α
  | [] => []
  | f :: Γ => ((name, a) :: f) :: Γ

end Frames

namespace Evaluation

inductive Stop where
  /-- The program is at fault. -/
  | fault (e : RuntimeError)
  /-- The bound on passes and calls is reached. -/
  | timeout
  /-- The tree has no meaning; nothing that can be compiled gets here. -/
  | stuck
deriving DecidableEq, Repr

/-- The variables in scope and what has been printed. -/
structure State where
  env : Frames Value
  printed : String

abbrev Eval := EStateM Stop State

/-- The meaning of functions: a value for a name and arguments, and what has been printed by then. -/
abbrev Calls := String → List Value → EStateM Stop String Value

/-- How control goes on behind a statement. -/
inductive Flow where
  /-- Behind it; the statement has a value. -/
  | next (v : Value)
  /-- With the test of the innermost loop. -/
  | again
  /-- With the caller of the function. -/
  | ret (v : Value)

/-! ## Variables and scopes -/

def lookup (name : String) : Eval Value := fun s =>
  match s.env.lookup name with
  | some v => .ok v s
  | none => .error .stuck s

def assign (name : String) (v : Value) : Eval Unit := fun s =>
  match s.env.lookup name with
  | some _ => .ok () { s with env := s.env.assign name v }
  | none => .error .stuck s

def declare (name : String) (v : Value) : Eval Unit := fun s =>
  .ok () { s with env := s.env.declare name v }

/-- Evaluates in a scope of its own, which ends however control goes on. -/
def inScope {α : Type} (part : Eval α) : Eval α := do
  modify fun s => { s with env := [] :: s.env }
  let a ← part
  modify fun s => { s with env := s.env.tail }
  pure a

def operand (op : Primitive) : Value → Eval Float
  | .number x => pure x
  | .text _ => throw (.fault (.textInArithmetic (.operand op)))

def arithmetic (op : Primitive) (l r : Value) : Eval Value := do
  let x ← operand op l
  let y ← operand op r
  match op.apply x y with
  | .ok z => pure (.number z)
  | .error e => throw (.fault e)

/-- Whether a condition holds, which is a comparison with zero. -/
def holds (c : Value) : Eval Bool := do
  let x ← operand .ne c
  pure (x != 0)

/-- The result of a call. The callee sees none of the variables of its caller. -/
def calling (call : Calls) (name : String) (args : List Value) : Eval Value := fun s =>
  match call name args s.printed with
  | .ok v printed => .ok v { s with printed := printed }
  | .error e printed => .error e { s with printed := printed }

/-! ## Trees -/

section Trees

variable (call : Calls)

mutual

def evalExpr : Expr → Eval Value
  | .number _ x => pure (.number x)
  | .text _ s => pure (.text s)
  | .var _ name => lookup name
  | .unary _ op operand => do
    let x ← evalExpr operand
    calling call (unaryName op) [x]
  | .binary _ op lhs rhs =>
    if op = '=' then
      match lhs with
      | .var _ name => do
        let x ← evalExpr rhs
        assign name x
        pure x
      | _ => throw .stuck
    else do
      let l ← evalExpr lhs
      let r ← evalExpr rhs
      match Primitive.ofSymbol? op with
      | some p => arithmetic p l r
      | none => calling call (binaryName op) [l, r]
  | .call _ name args => do
    let xs ← evalExprs args
    calling call name xs
  | .letIn _ bindings body => inScope do
    evalBindings bindings
    evalExpr body
termination_by structural e => e

def evalExprs : List Expr → Eval (List Value)
  | [] => pure []
  | e :: es => do
    let x ← evalExpr e
    let xs ← evalExprs es
    pure (x :: xs)
termination_by structural l => l

/-- Binds variables, each behind the evaluation of its initial value. -/
def evalBindings : List Binding → Eval Unit
  | [] => pure ()
  | ⟨_, name, none⟩ :: bs => do
    declare name (.number 0)
    evalBindings bs
  | ⟨_, name, some e⟩ :: bs => do
    let x ← evalExpr e
    declare name x
    evalBindings bs
termination_by structural l => l

end

theorem evalExpr_binary {pos : Pos} {op : Char} (hop : op ≠ '=') (lhs rhs : Expr) :
    evalExpr call (.binary pos op lhs rhs) = (do
      let l ← evalExpr call lhs
      let r ← evalExpr call rhs
      match Primitive.ofSymbol? op with
      | some p => arithmetic p l r
      | none => calling call (binaryName op) [l, r]) := by
  cases lhs <;> exact if_neg hop

theorem evalExpr_badDestination (pos : Pos) {lhs : Expr} (rhs : Expr) (h : ∀ target name, lhs ≠ .var target name) :
    evalExpr call (.binary pos '=' lhs rhs) = throw .stuck := by
  cases lhs with
  | var target name => exact absurd rfl (h target name)
  | number | text | unary | binary | call | letIn => exact if_pos rfl

def printLine (line : String) : Eval Unit :=
  modify fun s => { s with printed := s.printed ++ line ++ "\n" }

/-- Tests before every pass; `n` bounds the number of tests. -/
def loopFor (test : Eval Bool) (pass : Eval Flow) : Nat → Eval Flow
  | 0 => throw .timeout
  | n + 1 => do
    if ← test then do
      match ← pass with
      | .ret v => pure (.ret v)
      | _ => loopFor test pass n
    else pure (.next (.number 0))

def evalTest (test : Expr) : Eval Bool := do
  let c ← evalExpr call test
  holds c

mutual

/-- The meaning of a statement, where `n` bounds the number of tests of every loop. -/
def evalStmt (n : Nat) : Stmt → Eval Flow
  | .assign _ name value => do
    let x ← evalExpr call value
    assign name x
    pure (.next x)
  | .ret _ value => do
    let x ← evalExpr call value
    pure (.ret x)
  | .print _ items => do
    let xs ← evalExprs call items
    printLine (String.join (xs.map Value.render))
    pure (.next (.number 0))
  | .again _ => pure .again
  | .cond _ test yes none => do
    if ← evalTest call test then inScope (evalStmt n yes) else pure (.next (.number 0))
  | .cond _ test yes (some no) => do
    if ← evalTest call test then inScope (evalStmt n yes) else inScope (evalStmt n no)
  | .loop _ test body => loopFor (evalTest call test) (inScope (evalStmt n body)) n
  | .block _ declared body => inScope do
    evalBindings call declared
    evalStmts n body
  | .letIn _ bindings body => inScope do
    evalBindings call bindings
    evalStmt n body
termination_by structural s => s

/-- The meaning of statements, one after the other. Their value is that of the last one. -/
def evalStmts (n : Nat) : List Stmt → Eval Flow
  | [] => pure (.next (.number 0))
  | [s] => evalStmt n s
  | s :: ss => do
    match ← evalStmt n s with
    | .next _ => evalStmts n ss
    | flow => pure flow
termination_by structural l => l

end

/-! ## Functions -/

/-- The value of a function, which is that of its body unless it returns before its end. -/
def evalFunction (n : Nat) (f : Function) (args : List Value) : EStateM Stop String Value := fun printed =>
  match evalStmt call n f.body ⟨[(f.proto.params.zip args).reverse], printed⟩ with
  | .ok (.next v) s => .ok v s.printed
  | .ok (.ret v) s => .ok v s.printed
  | .ok .again s => .error .stuck s.printed
  | .error e s => .error e s.printed

end Trees

/-- The meaning of the functions `fs`; `n` bounds the nesting of calls and the passes through every loop. -/
def callFunction (fs : List Function) : Nat → Calls
  | n, name, args =>
    match fs.find? fun f => f.proto.name = name with
    | none => throw (.fault (.undefinedFunction name))
    | some f =>
      if f.proto.arity = args.length then
        match n with
        | 0 => throw .timeout
        | n + 1 => evalFunction (callFunction fs n) n f args
      else throw .stuck

def result (outcome : Except RuntimeError Value) (printed : String) : EStateM.Result Stop String Value :=
  match outcome with
  | .ok v => .ok v printed
  | .error e => .error (.fault e) printed

/-- Called with numbers, the function `name` of `fs` ends with the given outcome, which is a number unless it is at
fault, and has printed `printed` by then. -/
def Evaluates (fs : List Function) (name : String) (args : List Float) (outcome : Except RuntimeError Float)
    (printed : String) : Prop :=
  ∃ n, callFunction fs n name (args.map .number) "" = result (outcome.map .number) printed

end Evaluation

end Funclet
