import Funclet.Ast
import Funclet.Code
import Funclet.Diagnostic
import Funclet.OrderedMap

/-!
# Registered functions

Which functions are defined and which are only called so far. A call of an unknown name registers a
placeholder for it; the definition takes over from the placeholder. The entry function has as many
parameters as its first call or its definition says, whichever comes first.

* `Registry.find?`: what is known about a name.
* `Registry.enroll`: whether a definition is acceptable.
* `Registry.expectCall`: registers a placeholder.
* `Registry.confirm`, `Registry.withdraw`: a definition begins, and a failed one is taken back.
* `Registry.unresolved`: what has been called and not defined.
-/

namespace Funclet

namespace Registry

/-- A signature and the number of its function. -/
structure Entry where
  proto : Prototype
  id : FunctionId
deriving DecidableEq, Repr, Inhabited

/-- What it takes to withdraw a definition. -/
structure Opening where
  id : FunctionId
  name : String
  /-- The placeholder that the definition took over from. -/
  displaced : Option Entry
  /-- The number of placeholders when the definition began. -/
  mark : Nat
  /-- What was known about the entry function when the definition began. -/
  entryArity : Option Nat
deriving Repr, Inhabited

end Registry

structure Registry where
  entry : String
  /-- The number of its parameters, as soon as it is known. -/
  entryArity : Option Nat
  confirmed : OrderedMap String Registry.Entry
  pending : OrderedMap String Registry.Entry
deriving Repr

namespace Registry

def empty (entry : String) : Registry := ⟨entry, none, .empty, .empty⟩

instance : Inhabited Registry := ⟨empty ""⟩

def find? (r : Registry) (name : String) : Option Entry :=
  (r.confirmed.get? name).or (r.pending.get? name)

def defined? (r : Registry) (name : String) : Option FunctionId :=
  (r.confirmed.get? name).map Entry.id

/-- What has been called and not defined. -/
def unresolved (r : Registry) : List Prototype := r.pending.values.map Entry.proto

/-- Checks the number of arguments of the entry function, or settles it. -/
def settleEntry (r : Registry) (name : String) (arity : Nat) (pos : Pos) :
    Except Diagnostic Registry :=
  if name = r.entry then
    match r.entryArity with
    | none => .ok { r with entryArity := some arity }
    | some expected =>
      if expected = arity then .ok r
      else .error ⟨.entryArgumentCount name expected arity, pos⟩
  else .ok r

/-- Registers a placeholder for a function that is called. -/
def expectCall (r : Registry) (pos : Pos) (name : String) (arity : Nat) (id : FunctionId) :
    Registry :=
  { r with pending := r.pending.insert name ⟨.placeholder pos name arity, id⟩ }

/-- The kind of operator that a function gives its meaning to. -/
def fixity? : FunctionKind → Option Fixity
  | .plain => none
  | .unary _ => some .unary
  | .binary .. => some .binary

/-- Checks a signature that is to be defined: the number of its parameters if it is for an operator,
that its name is free, that earlier calls agree with it, and what is known about the entry function. -/
def enroll (r : Registry) (proto : Prototype) : Except Diagnostic Registry :=
  match (fixity? proto.kind).filter fun f => f.arity ≠ proto.arity with
  | some f => .error ⟨.operatorArity f proto.name proto.arity, proto.pos⟩
  | none =>
    if r.confirmed.contains proto.name then .error ⟨.redefined proto.name, proto.pos⟩
    else
      match (r.pending.get? proto.name).filter fun e => e.proto.arity ≠ proto.arity with
      | some e =>
        .error ⟨.inconsistentArguments proto.name e.proto.arity proto.arity, proto.pos⟩
      | none => r.settleEntry proto.name proto.arity proto.pos

/-- Makes a signature the one of its name. -/
def confirm (r : Registry) (proto : Prototype) (id : FunctionId) : Opening × Registry :=
  let pending := r.pending.erase proto.name
  (⟨id, proto.name, r.pending.get? proto.name, pending.size, r.entryArity⟩,
    { r with
      pending := pending
      confirmed := r.confirmed.insert proto.name ⟨proto, id⟩ })

/-- Takes back a definition: the placeholders that came after it are forgotten, as is what they said
about the entry function, and the placeholder that it took over from returns, at the end. -/
def withdraw (r : Registry) (o : Opening) : Registry :=
  let pending := r.pending.take o.mark
  { r with
    entryArity := o.entryArity
    confirmed := r.confirmed.erase o.name
    pending := match o.displaced with
      | some e => pending.insert o.name e
      | none => pending }

end Registry

end Funclet
