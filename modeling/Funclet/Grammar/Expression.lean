import Funclet.Ast
import Funclet.Grammar.State
import Funclet.Operators

/-!
# Reading expressions

Expressions are operands with binary operators between them. An operand is a primary expression with
any number of prefix operators before it, which bind tighter than every binary operator. The binary
operators are sorted out by precedence: a right operand takes in the operators after it that bind
tighter than the one before it, so operators of equal precedence associate to the left.

* `expression`: reads an expression.
* `bindings`: reads the bindings of a `VAR` list.

The functions behind them descend through the text with an explicit bound on the depth. `State.fuel`
is always enough: every level that is entered again has consumed a token.
-/

namespace Funclet.Grammar

mutual

def expressionFor (ops : Operators) : Nat → Read Expr
  | 0 => fail .notExpression
  | n + 1 => do
    let lhs ← operandFor ops n
    climbFor ops n 0 lhs
termination_by structural n => n

/-- Goes on with the expression that starts with `lhs`, as long as the binary operators have at least
the precedence `least`. -/
def climbFor (ops : Operators) : Nat → Nat → Expr → Read Expr
  | 0, _, _ => fail .notExpression
  | n + 1, least, lhs => do
    match ← peek with
    | .symbol op =>
      match ops.precedence? (.symbol op) with
      | none => pure lhs
      | some precedence =>
        if precedence < least then pure lhs
        else do
          let pos ← here
          advance
          let operand ← operandFor ops n
          let rhs ←
            if (ops.precedence? (← peek)).any (precedence < ·) then
              climbFor ops n (precedence + 1) operand
            else pure operand
          climbFor ops n least (.binary pos op lhs rhs)
    | _ => pure lhs
termination_by structural n => n

/-- Reads an operand: unary operators, then a primary expression. -/
def operandFor (ops : Operators) : Nat → Read Expr
  | 0 => fail .notExpression
  | n + 1 => do
    let pos ← here
    match ← peek with
    | .symbol op =>
      if ops.isUnary (.symbol op) then do
        advance
        let operand ← operandFor ops n
        pure (.unary pos op operand)
      else primaryFor ops n
    | _ => primaryFor ops n
termination_by structural n => n

/-- Reads a primary expression. A minus sign before an operand subtracts it from zero, unless the table
makes it a unary operator. -/
def primaryFor (ops : Operators) : Nat → Read Expr
  | 0 => fail .notExpression
  | n + 1 => do
    let pos ← here
    match ← peek with
    | .number value => do
      advance
      pure (.number pos value)
    | .ident name => do
      advance
      if (← peek) = .symbol '(' then do
        advance
        let args ← argumentsFor ops n
        pure (.call pos name args)
      else pure (.var pos name)
    | .symbol c =>
      if c = '(' then do
        advance
        let inner ← expressionFor ops n
        expect (.symbol ')') .parenthesis
        pure inner
      else if c = '-' then do
        advance
        let operand ← operandFor ops n
        pure (.binary pos '-' (.number pos 0) operand)
      else fail .notExpression
    | .keyword .VAR => do
      advance
      let bindings ← bindingsFor ops n
      let body ← expressionFor ops n
      pure (.letIn pos bindings body)
    | _ => fail .notExpression
termination_by structural n => n

/-- Reads arguments behind an opening parenthesis, through the closing one. -/
def argumentsFor (ops : Operators) : Nat → Read (List Expr)
  | 0 => fail .notExpression
  | n + 1 => do
    if (← peek) = .symbol ')' then do
      advance
      pure []
    else moreArgumentsFor ops n
termination_by structural n => n

/-- Reads one or more arguments, through the closing parenthesis. -/
def moreArgumentsFor (ops : Operators) : Nat → Read (List Expr)
  | 0 => fail .notExpression
  | n + 1 => do
    let arg ← expressionFor ops n
    if (← peek) = .symbol ')' then do
      advance
      pure [arg]
    else do
      expect (.symbol ',') .argumentList
      let args ← moreArgumentsFor ops n
      pure (arg :: args)
termination_by structural n => n

def bindingsFor (ops : Operators) : Nat → Read (List Binding)
  | 0 => fail .notExpression
  | n + 1 => do
    let pos ← here
    let name ← expectName .varList
    let init ←
      if (← peek) = .symbol '=' then do
        advance
        let value ← expressionFor ops n
        pure (some value)
      else pure none
    if (← peek) = .symbol ',' then do
      advance
      let more ← bindingsFor ops n
      pure (⟨pos, name, init⟩ :: more)
    else pure [⟨pos, name, init⟩]
termination_by structural n => n

end

def expression (ops : Operators) : Read Expr := fun s => expressionFor ops s.fuel s

def bindings (ops : Operators) : Read (List Binding) := fun s => bindingsFor ops s.fuel s

end Funclet.Grammar
