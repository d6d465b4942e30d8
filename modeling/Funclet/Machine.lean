import Funclet.Code
import Funclet.Decimal.Layout
import Funclet.Settings

/-!
# The machine

Executes programs. Every instruction and every terminator is a step, and the machine counts the steps
of all its runs; it also counts the activations that are nested. Both have limits.

* `Value`, `Output`: what a program computes with, and where it prints.
* `RuntimeError`: why a run stops without a result.
* `Machine`: what outlasts a run: the steps taken, the activations open, and the output.
* `Machine.call`, `Machine.runEntry`: run a function, or the entry function of a program.

A run goes on until the steps are used up, and the activations can only be as deep as their limit
allows, so both bounds are arguments that the recursion counts down.
-/

namespace Funclet

/-- What a program computes with. Text comes from literals only, and can only be printed. -/
inductive Value where
  | number (value : Float)
  | text (value : String)
deriving DecidableEq, Repr, Inhabited

namespace Value

def ofConstant : Constant → Value
  | .number x => number x
  | .text s => text s

def render : Value → String
  | number x => Decimal.render .plain x
  | text s => s

end Value

/-! ## Output -/

structure Output where
  text : String
  /-- How many bytes still fit, if there is a bound. -/
  room : Option Nat
  /-- Whether the bytes end inside a character, of which only a part did fit. -/
  torn : Bool
deriving DecidableEq, Repr, Inhabited

namespace Output

/-- Nothing printed yet; `room` bounds the bytes that fit, if there is a bound. -/
def empty (room : Option Nat) : Output := ⟨"", room, false⟩

/-- Writes the characters that fit, and a part of the next one if there is still room. -/
def fill (o : Output) : Nat → List Char → Output
  | room, [] => { o with room := some room }
  | room, c :: cs =>
    if c.utf8Size ≤ room then fill { o with text := o.text.push c } (room - c.utf8Size) cs
    else { o with room := some 0, torn := 0 < room }

/-- Writes all of `s`, or else as much as fits; says which. -/
def write (o : Output) (s : String) : Bool × Output :=
  match o.room with
  | none => (true, { o with text := o.text ++ s })
  | some room =>
    if s.utf8ByteSize ≤ room then
      (true, { o with text := o.text ++ s, room := some (room - s.utf8ByteSize) })
    else (false, o.fill room s.toList)

/-- What can be read of the output; a torn character cannot. -/
def render (o : Output) : String := if o.torn then o.text ++ "�" else o.text

end Output

/-! ## Errors -/

inductive Malformation where
  | value (v : ValueId)
  | param (index : Nat)
  | slot (s : SlotId)
  | region (r : RegionId)
  | openRegion (r : RegionId)
deriving DecidableEq, Repr, Inhabited

def Malformation.message : Malformation → String
  | value v => "value v" ++ toString v ++ " out of range"
  | param index => "no parameter " ++ toString index
  | slot s => "no slot s" ++ toString s
  | region r => "no region r" ++ toString r
  | openRegion r => "region r" ++ toString r ++ " has no terminator"

/-- Where a number is needed. -/
inductive NumberUse where
  | operand (op : Primitive)
  | condition
deriving DecidableEq, Repr, Inhabited

def NumberUse.label : NumberUse → String
  | operand op => op.mnemonic
  | condition => "condition"

inductive RuntimeError where
  | undefinedFunction (name : String)
  | missingEntry (name : String)
  | arity (name : String) (expected got : Nat)
  | divisionByZero
  | stackOverflow (limit : Nat)
  | stepLimit (limit : Nat)
  | textInArithmetic (use : NumberUse)
  | malformed (name : String) (detail : Malformation)
  | outputFull
deriving DecidableEq, Repr, Inhabited

def RuntimeError.message : RuntimeError → String
  | undefinedFunction name => "function '" ++ name ++ "' was declared but never defined"
  | missingEntry name => "no entry function '" ++ name ++ "' in program"
  | arity name want got =>
    "function '" ++ name ++ "' expects " ++ toString want ++ " arguments, got " ++ toString got
  | divisionByZero => "division by zero"
  | stackOverflow limit => "call depth exceeded " ++ toString limit
  | stepLimit limit => "step budget of " ++ toString limit ++ " exhausted"
  | textInArithmetic use => "text value used in " ++ use.label
  | malformed name detail => "malformed function '" ++ name ++ "': " ++ detail.message
  | outputFull => "failed to write whole buffer"

/-! ## Arithmetic -/

def truthValue (b : Bool) : Float := if b then 1 else 0

def Primitive.apply (op : Primitive) (l r : Float) : Except RuntimeError Float :=
  match op with
  | add => .ok (l + r)
  | sub => .ok (l - r)
  | mul => .ok (l * r)
  | div => if r == 0 then .error .divisionByZero else .ok (l / r)
  | lt => .ok (truthValue (l < r))
  | ne => .ok (truthValue (l != r))

/-! ## Runs -/

/-- What outlasts a run. -/
structure Machine where
  /-- The steps begun so far. -/
  steps : Nat
  /-- The activations that are open. -/
  depth : Nat
  output : Output
deriving DecidableEq, Repr, Inhabited

namespace Machine

def initial (room : Option Nat) : Machine := ⟨0, 0, .empty room⟩

/-- A part of a run. -/
abbrev Exec := EStateM RuntimeError Machine

/-- Begins a step. -/
def tick (limits : Limits) : Exec Unit := fun m =>
  let m := { m with steps := m.steps + 1 }
  if limits.maxSteps < m.steps then .error (.stepLimit limits.maxSteps) m else .ok () m

def printLine (line : String) : Exec Unit := fun m =>
  match m.output.write line with
  | (false, output) => .error .outputFull { m with output := output }
  | (true, output) =>
    match output.write "\n" with
    | (false, output) => .error .outputFull { m with output := output }
    | (true, output) => .ok () { m with output := output }

/-- The values and slots of an activation. -/
structure Frame where
  values : Array Value
  slots : Array Value
deriving Repr, Inhabited

/-- The frame that a body starts with: every value and slot is zero. -/
def Frame.initial (b : Body) : Frame where
  values := Array.replicate b.valueCount (.number 0)
  slots := Array.replicate b.slots.size (.number 0)

def read (b : Body) (f : Frame) (v : ValueId) : Exec Value :=
  match f.values[v]? with
  | some x => pure x
  | none => throw (.malformed b.name (.value v))

def readAll (b : Body) (f : Frame) : List ValueId → Exec (List Value)
  | [] => pure []
  | v :: vs => do
    let x ← read b f v
    let xs ← readAll b f vs
    pure (x :: xs)

def asNumber (use : NumberUse) : Value → Exec Float
  | .number x => pure x
  | .text _ => throw (.textInArithmetic use)

def define (b : Body) (f : Frame) (v : ValueId) (x : Value) : Exec Frame :=
  if v < f.values.size then pure { f with values := f.values.setIfInBounds v x }
  else throw (.malformed b.name (.value v))

/-- Executes an instruction of the body `b`, where `call` runs other functions. -/
def exec (call : FunctionId → List Value → Exec Value) (b : Body) (args : List Value) (f : Frame) :
    Inst → Exec Frame
  | .const dest c => define b f dest (.ofConstant c)
  | .param dest index =>
    match args[index]? with
    | some x => define b f dest x
    | none => throw (.malformed b.name (.param index))
  | .load dest slot =>
    match f.slots[slot]? with
    | some x => define b f dest x
    | none => throw (.malformed b.name (.slot slot))
  | .store slot v => do
    let x ← read b f v
    if slot < f.slots.size then pure { f with slots := f.slots.setIfInBounds slot x }
    else throw (.malformed b.name (.slot slot))
  | .primitive dest op lhs rhs => do
    let l ← asNumber (.operand op) (← read b f lhs)
    let r ← asNumber (.operand op) (← read b f rhs)
    match op.apply l r with
    | .ok x => define b f dest (.number x)
    | .error e => throw e
  | .call dest callee vs => do
    let xs ← readAll b f vs
    let x ← call callee xs
    define b f dest x
  | .print vs => do
    let xs ← readAll b f vs
    printLine (String.join (xs.map Value.render))
    pure f

inductive Exit where
  | jump (target : RegionId)
  | done (result : Value)

/-- Executes the terminator of the region `r` of the body `b`. -/
def exit (b : Body) (f : Frame) (r : RegionId) : Option Terminator → Exec Exit
  | some (.ret v) => do
    let x ← read b f v
    pure (.done x)
  | some (.branch target) => pure (.jump target)
  | some (.branchIf v yes no) => do
    let c ← asNumber .condition (← read b f v)
    pure (.jump (if c == 0 then no else yes))
  | none => throw (.malformed b.name (.openRegion r))

/-- Runs the body `b` from the instruction `k` of the region `r` on, for at most `fuel` more steps. As
long as `fuel` is no less than what is left of the budget, the budget is used up first. -/
def resume (limits : Limits) (call : FunctionId → List Value → Exec Value) (b : Body)
    (args : List Value) : Nat → RegionId → Nat → Frame → Exec Value
  | fuel, r, k, f =>
    match b.regions[r]? with
    | none => throw (.malformed b.name (.region r))
    | some region => do
      tick limits
      match fuel with
      | 0 => throw (.stepLimit limits.maxSteps)
      | fuel + 1 =>
        match region.insts[k]? with
        | some inst => do
          let f ← exec call b args f inst
          resume limits call b args fuel r (k + 1) f
        | none => do
          match ← exit b f r region.terminator with
          | .jump target => resume limits call b args fuel target 0 f
          | .done x => pure x

def activate (limits : Limits) (call : FunctionId → List Value → Exec Value) (b : Body)
    (args : List Value) : Exec Value := fun m =>
  resume limits call b args (limits.maxSteps - m.steps) 0 0 (.initial b) m

/-- Runs a part of a run one activation deeper. -/
def deeper {α : Type} (part : Exec α) : Exec α := fun m =>
  match part { m with depth := m.depth + 1 } with
  | .ok x m => .ok x { m with depth := m.depth - 1 }
  | .error e m => .error e { m with depth := m.depth - 1 }

/-- Calls a function, where at most `room` more activations can be nested. As long as `room` is no less
than what the limit leaves, the limit is reached first. -/
def callFor (p : Program) (limits : Limits) : Nat → FunctionId → List Value → Exec Value
  | room, id, args =>
    match p.body? id with
    | none => throw (.undefinedFunction (p.nameOf id))
    | some b =>
      if b.params = args.length then do
        let m ← get
        if limits.maxCallDepth ≤ m.depth then throw (.stackOverflow limits.maxCallDepth)
        else match room with
          | 0 => throw (.stackOverflow limits.maxCallDepth)
          | room + 1 => deeper (activate limits (callFor p limits room) b args)
      else throw (.arity b.name b.params args.length)

def call (p : Program) (limits : Limits) (id : FunctionId) (args : List Value) : Exec Value :=
  fun m => callFor p limits (limits.maxCallDepth - m.depth) id args m

def runEntry (p : Program) (limits : Limits) (name : String) (args : List Value) : Exec Value :=
  match p.entry with
  | some id => call p limits id args
  | none => throw (.missingEntry name)

end Machine

end Funclet
