import Funclet.Code

/-!
# What lowering asks of a code generator

* `Emitter`: functions are declared, regions are added to them, and instructions go to the end of the region at the
  insertion point, until it is closed by its terminator. `Assembler` is such a generator.
-/

namespace Funclet

/-- A region of a function. -/
structure Place where
  function : FunctionId
  region : RegionId
deriving DecidableEq, Repr, Inhabited

/-- Code generators with the states `E`. -/
class Emitter (E : Type) where
  /-- Declares a function, or changes the number of its parameters. One name has one number. -/
  declare : E → String → Nat → FunctionId × E
  addRegion : E → FunctionId → String → Place × E
  /-- Moves the insertion point. -/
  moveTo : E → Place → E
  reserve : E → Place → String → SlotId × E
  constant : E → Constant → ValueId × E
  param : E → Nat → ValueId × E
  load : E → SlotId → ValueId × E
  primitive : E → Primitive → ValueId → ValueId → ValueId × E
  call : E → FunctionId → List ValueId → ValueId × E
  store : E → SlotId → ValueId → E
  print : E → List ValueId → E
  close : E → Terminator → E
  /-- Whether the region at the insertion point has its terminator. -/
  isClosed : E → Bool
  finish : E → FunctionId → Except FinishError Body × E
  /-- Drops what is under construction for a function, but not its declaration. -/
  discard : E → FunctionId → E

end Funclet
