/-!
# Region code

A function body is a list of regions. A region is a straight run of instructions closed by one
terminator; region 0 is where the body starts. Intermediate results have numbers of their own, and
variables live in slots.

* `Inst`, `Terminator`, `Region`, `Body`: the code of one function.
* `Declaration`, `Program`: the functions known by name, and the bodies there are for them.
* `Program.body?`: the body that a function number stands for.
* `FinishError`: why a body cannot be finished.
-/

namespace Funclet

abbrev FunctionId := Nat
abbrev RegionId := Nat
abbrev SlotId := Nat
abbrev ValueId := Nat

inductive Constant where
  | number (value : Float)
  | text (value : String)
deriving DecidableEq, Repr, Inhabited

/-- The operations on numbers. The comparisons give one or zero. -/
inductive Primitive where
  | add
  | sub
  | mul
  | div
  | lt
  | ne
deriving DecidableEq, Repr, Inhabited

namespace Primitive

def ofSymbol? (op : Char) : Option Primitive :=
  if op = '+' then some add
  else if op = '-' then some sub
  else if op = '*' then some mul
  else if op = '/' then some div
  else if op = '<' then some lt
  else none

/-- The name of the operation in listings and messages. -/
def mnemonic : Primitive → String
  | add => "add"
  | sub => "sub"
  | mul => "mul"
  | div => "div"
  | lt => "lt"
  | ne => "ne"

def all : List Primitive := [add, sub, mul, div, lt, ne]

end Primitive

/-- An instruction. All but `store` and `print` define the value `dest`. -/
inductive Inst where
  | const (dest : ValueId) (value : Constant)
  | param (dest : ValueId) (index : Nat)
  | load (dest : ValueId) (slot : SlotId)
  | store (slot : SlotId) (value : ValueId)
  | primitive (dest : ValueId) (op : Primitive) (lhs rhs : ValueId)
  | call (dest : ValueId) (callee : FunctionId) (args : List ValueId)
  | print (items : List ValueId)
deriving DecidableEq, Repr, Inhabited

/-- How control leaves a region. -/
inductive Terminator where
  | branch (target : RegionId)
  /-- To `yes` unless `test` is zero, else to `no`. -/
  | branchIf (test : ValueId) (yes no : RegionId)
  | ret (value : ValueId)
deriving DecidableEq, Repr, Inhabited

/-- A run of instructions and its terminator, which is missing as long as the region is open. -/
structure Region where
  label : String
  insts : Array Inst
  terminator : Option Terminator
deriving DecidableEq, Repr, Inhabited

/-- A place for a variable, and the region it was reserved in. -/
structure Slot where
  name : String
  region : RegionId
deriving DecidableEq, Repr, Inhabited

/-- The code of a function. -/
structure Body where
  id : FunctionId
  name : String
  params : Nat
  slots : Array Slot
  regions : Array Region
  valueCount : Nat
deriving DecidableEq, Repr, Inhabited

/-- A function that is known by name. -/
structure Declaration where
  id : FunctionId
  name : String
  params : Nat
deriving DecidableEq, Repr, Inhabited

inductive FinishError where
  | noBody (function : String)
  | unterminated (function region : String)
deriving DecidableEq, Repr, Inhabited

def FinishError.message : FinishError → String
  | noBody f => "function '" ++ f ++ "' has no body under construction"
  | unterminated f r => "region '" ++ r ++ "' in function '" ++ f ++ "' has no terminator"

structure Program where
  declarations : List Declaration
  bodies : List Body
  /-- The function to start with, if it has a body. -/
  entry : Option FunctionId
deriving DecidableEq, Repr, Inhabited

namespace Program

/-- The body of a function. Should several claim one number, the last of them has it. -/
def body? (p : Program) (id : FunctionId) : Option Body :=
  p.bodies.foldl (fun found b => if b.id = id then some b else found) none

/-- The first body with the given name. -/
def find? (p : Program) (name : String) : Option Body :=
  p.bodies.find? fun b => b.name = name

def declaration? (p : Program) (id : FunctionId) : Option Declaration :=
  p.declarations.find? fun d => d.id = id

/-- The name of a function, or its number after `#` if it has none. -/
def nameOf (p : Program) (id : FunctionId) : String :=
  match p.declaration? id with
  | some d => d.name
  | none => "#" ++ toString id

def entryBody? (p : Program) : Option Body :=
  p.entry.bind p.body?

end Program

end Funclet
