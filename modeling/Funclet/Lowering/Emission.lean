import Funclet.Session

/-!
# Emitting code

The steps that lowering is made of: instructions, terminators and regions for the function at hand,
and its scopes.
-/

namespace Funclet.Lowering

variable {E : Type}

/-- A change of the code under construction, with a result. -/
def assemble {α : Type} (f : E → α × E) : CompileWith E α := fun s =>
  let (x, assembler) := f s.assembler
  .ok x { s with assembler := assembler }

def assemble_ (f : E → E) : CompileWith E Unit := fun s =>
  .ok () { s with assembler := f s.assembler }

def rescope (f : Scopes SlotId → Scopes SlotId) : CompileWith E Unit := fun s =>
  .ok () { s with scopes := f s.scopes }

/-! ## Instructions -/

section Code

variable [Emitter E]

def constant (c : Constant) : CompileWith E ValueId := assemble (Emitter.constant · c)

def zero : CompileWith E ValueId := constant (.number 0)

def param (index : Nat) : CompileWith E ValueId := assemble (Emitter.param · index)

def load (slot : SlotId) : CompileWith E ValueId := assemble (Emitter.load · slot)

def primitive (op : Primitive) (lhs rhs : ValueId) : CompileWith E ValueId :=
  assemble (Emitter.primitive · op lhs rhs)

def call (callee : FunctionId) (args : List ValueId) : CompileWith E ValueId :=
  assemble (Emitter.call · callee args)

/-- One if a value is not zero, else zero. -/
def truth (value : ValueId) : CompileWith E ValueId := do
  let z ← zero
  primitive .ne value z

def store (slot : SlotId) (value : ValueId) : CompileWith E Unit :=
  assemble_ (Emitter.store · slot value)

def print (items : List ValueId) : CompileWith E Unit := assemble_ (Emitter.print · items)

/-! ## Regions -/

def region (entry : Place) (label : String) : CompileWith E Place :=
  assemble (Emitter.addRegion · entry.function label)

def moveTo (place : Place) : CompileWith E Unit := assemble_ (Emitter.moveTo · place)

def close (t : Terminator) : CompileWith E Unit := assemble_ (Emitter.close · t)

def isClosed : CompileWith E Bool := fun s => .ok (Emitter.isClosed s.assembler) s

/-- Closes the current region unless it is closed, after `before`. -/
def closeAfter (before : CompileWith E Unit) (t : Terminator) : CompileWith E Unit := do
  if ← isClosed then pure ()
  else do
    before
    close t

/-- Goes on in a region that nothing leads to, for what follows a jump. -/
def deadRegion (entry : Place) (label : String) : CompileWith E Unit := do
  let place ← region entry label
  moveTo place

/-! ## Slots and scopes -/

/-- Reserves a slot. All slots of a function are reserved in its entry region. -/
def reserve (entry : Place) (name : String) : CompileWith E SlotId := assemble (Emitter.reserve · entry name)

end Code

def slotOf (pos : Pos) (name : String) : CompileWith E SlotId := fun s =>
  match s.scopes.lookup name with
  | some slot => .ok slot s
  | none => .error ⟨.unknownVariable name, pos⟩ s

/-- Binds a name to a new slot that holds `value`. -/
def declare [Emitter E] (entry : Place) (name : String) (value : ValueId) : CompileWith E Unit := do
  let slot ← reserve entry name
  store slot value
  rescope (·.declare name slot)

def inScope {α : Type} (step : CompileWith E α) : CompileWith E α := do
  rescope Scopes.enter
  let x ← step
  rescope Scopes.leave
  pure x

/-- The function behind an operator, which has to be defined. -/
def operatorFunction (pos : Pos) (fixity : Fixity) (op : Char) : CompileWith E FunctionId := fun s =>
  let name := match fixity with
    | .unary => unaryName op
    | .binary => binaryName op
  match s.registry.defined? name with
  | some id => .ok id s
  | none => .error ⟨.unknownOperator fixity op, pos⟩ s

end Funclet.Lowering
