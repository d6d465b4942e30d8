import Funclet.Code.Assembler
import Funclet.Event
import Funclet.Registry
import Funclet.Scopes

/-!
# Sessions

All that a compiler carries from one function to the next, and how names become functions.

* `Session`: the operators in force, the scopes of the function at hand, the registered functions, the
  code under construction, and what has happened so far. The code generator is the assembler unless
  another one is given.
* `Compile`: a step of a session, which may fail with a diagnostic. The session goes on in either case.
* `resolve`: the function that a call means.
* `enroll`, `Session.withdraw`: a definition begins, and a failed one is taken back.
-/

namespace Funclet

/-- The state of a compiler, where `E` are the states of the code generator. -/
structure Session (E : Type := Assembler) where
  /-- Whether a function that is called and never defined is an error. -/
  strict : Bool
  operators : Operators
  scopes : Scopes SlotId
  registry : Registry
  assembler : E
  /-- What has happened, in order. -/
  journal : List Event
deriving Repr

abbrev Compile := EStateM Diagnostic Session

/-- A step of a session with any code generator. -/
abbrev CompileWith (E : Type) := EStateM Diagnostic (Session E)

def Session.initial (entry : String) (strict : Bool) : Session where
  strict := strict
  operators := .initial
  scopes := .empty
  registry := .empty entry
  assembler := .empty
  journal := []

instance : Inhabited Session := ⟨.initial "" true⟩

variable {E : Type}

namespace Session

def record (s : Session E) (events : List Event) : Session E :=
  { s with journal := s.journal ++ events }

def note (s : Session E) (n : Note) : Session E := s.record [.note n]

def report (s : Session E) (d : Diagnostic) : Session E := s.record [.report d]

/-- The session with another operator table, where `notes` tell what has changed. -/
def setOperators (s : Session E) (operators : Operators) (notes : List Note) : Session E :=
  { s with operators := operators }.record (notes.map .note)

def withdraw [Emitter E] (s : Session E) (o : Registry.Opening) : Session E :=
  { s with
    assembler := Emitter.discard s.assembler o.id
    registry := s.registry.withdraw o }

end Session

variable [Emitter E]

/-- The function that a call with `argc` arguments means. An unknown one gets a placeholder. -/
def resolve (pos : Pos) (name : String) (argc : Nat) : CompileWith E FunctionId := fun s =>
  match s.registry.find? name with
  | some e =>
    if e.proto.arity = argc then .ok e.id s
    else .error ⟨.argumentCount name e.proto.arity argc, pos⟩ s
  | none =>
    match s.registry.settleEntry name argc pos with
    | .error d => .error d s
    | .ok registry =>
      let (id, assembler) := Emitter.declare s.assembler name argc
      let registry := registry.expectCall pos name argc id
      .ok id ({ s with registry := registry, assembler := assembler }.note
        (.placeholderMade name argc))

/-- Begins a definition, which takes over from a placeholder if there is one. -/
def enroll (proto : Prototype) : CompileWith E Registry.Opening := fun s =>
  match s.registry.enroll proto with
  | .error d => .error d s
  | .ok registry =>
    let (id, assembler) := Emitter.declare s.assembler proto.name proto.arity
    let (opening, registry) := registry.confirm proto id
    .ok opening ({ s with registry := registry, assembler := assembler }.record
      (if opening.displaced.isSome then [.note (.placeholderMet proto.name)] else []))

end Funclet
