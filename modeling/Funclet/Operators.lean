import Funclet.Ast
import Funclet.OrderedMap
import Funclet.Token

/-!
# Operators

Which symbols are operators, and how tightly the binary ones bind. The table starts with the built-in
operators and changes as operator functions are defined.

* `Operators.precedence?`, `Operators.isUnary`: what the table says about a token.
* `Operators.define`: what a definition changes, with the `Undo` that reverses it.
* `Operators.undo`: the reversal.
-/

namespace Funclet

structure Operators where
  binary : OrderedMap Char Nat
  unary : List Char
deriving Repr

namespace Operators

/-- The built-in binary operators; assignment binds least. -/
def builtin : List (Char × Nat) :=
  [('=', 2), ('<', 10), ('+', 20), ('-', 20), ('*', 40), ('/', 40)]

def defaultPrecedence : Nat := 30

def initial : Operators := ⟨⟨builtin⟩, []⟩

instance : Inhabited Operators := ⟨initial⟩

/-- The precedence of a token as a binary operator. A symbol of precedence zero is none. -/
def precedence? (t : Operators) : Token → Option Nat
  | .symbol c => (t.binary.get? c).filter (0 < ·)
  | _ => none

def isUnary (t : Operators) : Token → Bool
  | .symbol c => t.unary.contains c
  | _ => false

/-- What a symbol meant before a definition. -/
inductive Undo where
  | binary (op : Char) (previous : Option Nat)
  | unary (op : Char) (wasUnary : Bool)
deriving DecidableEq, Repr

/-- Enters the operator that a definition of the given kind introduces. -/
def define (t : Operators) : FunctionKind → Operators × Option Undo
  | .plain => (t, none)
  | .binary op precedence =>
    ({ t with binary := t.binary.insert op precedence }, some (.binary op (t.binary.get? op)))
  | .unary op =>
    if t.unary.contains op then (t, some (.unary op true))
    else ({ t with unary := op :: t.unary }, some (.unary op false))

def undo (t : Operators) : Undo → Operators
  | .binary op (some precedence) => { t with binary := t.binary.insert op precedence }
  | .binary op none => { t with binary := t.binary.erase op }
  | .unary _ true => t
  | .unary op false => { t with unary := t.unary.filter (· ≠ op) }

def Undo.render : Undo → String
  | binary op previous =>
    "Binary \x7b op: " ++ Text.quoteChar op ++ ", previous: "
      ++ (match previous with
        | some p => "Some(" ++ toString p ++ ")"
        | none => "None")
      ++ " \x7d"
  | unary op wasUnary =>
    "Unary \x7b op: " ++ Text.quoteChar op ++ ", was_unary: "
      ++ (if wasUnary then "true" else "false") ++ " \x7d"

end Operators

end Funclet
