import Funclet.Lowering.Emission

/-!
# Lowering expressions

* `lowerExpr`: the code of an expression, at the insertion point; its result is a value.
* `lowerBindings`: the code of a `VAR` list, which binds its names in the current scope.

Operands and arguments are computed from left to right. An initial value is computed before its name
is bound, so it sees the bindings before it and not its own.
-/

namespace Funclet.Lowering

variable {E : Type} [Emitter E]

mutual

def lowerExpr (entry : Place) : Expr → CompileWith E ValueId
  | .number _ x => constant (.number x)
  | .text _ s => constant (.text s)
  | .var pos name => do
    let slot ← slotOf pos name
    load slot
  | .unary pos op operand => do
    let v ← lowerExpr entry operand
    let f ← operatorFunction pos .unary op
    call f [v]
  | .binary pos op lhs rhs =>
    if op = '=' then
      match lhs with
      | .var target name => do
        let v ← lowerExpr entry rhs
        let slot ← slotOf target name
        store slot v
        pure v
      | lhs => throw ⟨.badDestination, lhs.pos⟩
    else do
      let l ← lowerExpr entry lhs
      let r ← lowerExpr entry rhs
      match Primitive.ofSymbol? op with
      | some p => primitive p l r
      | none => do
        let f ← operatorFunction pos .binary op
        call f [l, r]
  | .call pos callee args => do
    let f ← resolve pos callee args.length
    let vs ← lowerExprs entry args
    call f vs
  | .letIn _ bindings body => inScope do
    lowerBindings entry bindings
    lowerExpr entry body
termination_by structural e => e

def lowerExprs (entry : Place) : List Expr → CompileWith E (List ValueId)
  | [] => pure []
  | e :: es => do
    let v ← lowerExpr entry e
    let vs ← lowerExprs entry es
    pure (v :: vs)
termination_by structural l => l

/-- The code of a `VAR` list. A name without an initial value starts as zero. -/
def lowerBindings (entry : Place) : List Binding → CompileWith E Unit
  | [] => pure ()
  | ⟨_, name, none⟩ :: bs => do
    let v ← zero
    declare entry name v
    lowerBindings entry bs
  | ⟨_, name, some e⟩ :: bs => do
    let v ← lowerExpr entry e
    declare entry name v
    lowerBindings entry bs
termination_by structural l => l

end

end Funclet.Lowering
