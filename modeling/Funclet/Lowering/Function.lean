import Funclet.Lowering.Statement

/-!
# Lowering functions

* `lowerFunction`: the body of a function. A function that fails leaves the session as it was, except
  for the declarations made for it and the journal.
-/

namespace Funclet.Lowering

variable {E : Type} [Emitter E]

/-- Binds parameters, from the one with the given index on, to slots that hold their values. -/
def lowerParams (entry : Place) : Nat → List String → CompileWith E Unit
  | _, [] => pure ()
  | index, name :: names => do
    let slot ← reserve entry name
    let v ← param index
    store slot v
    rescope (·.declare name slot)
    lowerParams entry (index + 1) names

def finish (pos : Pos) (id : FunctionId) : CompileWith E Body := fun s =>
  match Emitter.finish s.assembler id with
  | (.ok body, assembler) => .ok body { s with assembler := assembler }
  | (.error e, assembler) => .error ⟨.unfinished e, pos⟩ { s with assembler := assembler }

def lowerBody (f : Function) (id : FunctionId) : CompileWith E Body := do
  let entry ← assemble (Emitter.addRegion · id "entry")
  moveTo entry
  inScope do
    lowerParams entry 0 f.proto.params
    let v ← lowerStmt entry none f.body
    closeAfter (pure ()) (.ret v)
  finish f.proto.pos id

def lowerFunction (f : Function) : CompileWith E Body := fun s =>
  match enroll f.proto { s with scopes := .empty } with
  | .error d s => .error d s
  | .ok opening s =>
    let (operators, undo) := s.operators.define f.proto.kind
    match lowerBody f opening.id (s.setOperators operators (Note.ofKind f.proto.kind)) with
    | .ok body s => .ok body (s.note (.functionLowered f.proto.name body.regions.size))
    | .error d s =>
      let s := s.withdraw opening
      let s := match undo with
        | some u => s.setOperators (s.operators.undo u) [.operatorRestored u]
        | none => s
      .error d ({ s with scopes := .empty }.note (.functionDiscarded f.proto.name d.cause))

end Funclet.Lowering
