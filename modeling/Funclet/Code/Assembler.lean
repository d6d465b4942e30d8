import Funclet.Code.Emitter
import Funclet.OrderedMap

/-!
# Assembling code

Bodies are built region by region. Instructions go to the end of the region at the insertion point,
which can move freely; the first terminator that a region is given closes it.

* `Assembler`: the declarations, the bodies under construction, and the insertion point.
* `declare`: the number of a function; one name has one number.
* `addRegion`, `moveTo`, `reserve`: regions, the insertion point, slots.
* `emit`, `append`, `close`: instructions that define a value, other instructions, terminators.
* `finish`, `discard`: a finished body leaves construction, and an unfinished one is dropped.
* `link`: a program of finished bodies.

A body is opened by the first thing that is put into it.
-/

namespace Funclet

/-- Code under construction. -/
structure Assembler where
  declarations : List Declaration
  drafts : OrderedMap FunctionId Body
  /-- Where instructions go. -/
  cursor : Option Place
  /-- How many values were handed out while there was no insertion point. -/
  detached : Nat
deriving Repr

namespace Assembler

def empty : Assembler := ⟨[], .empty, none, 0⟩

instance : Inhabited Assembler := ⟨empty⟩

/-! ## Declarations -/

def declaration? (a : Assembler) (name : String) : Option Declaration :=
  a.declarations.find? fun d => d.name = name

/-- The declarations with `params` parameters for `name`, which is added at the end if it is new. -/
def declareIn (name : String) (params : Nat) (fresh : FunctionId) :
    List Declaration → List Declaration
  | [] => [⟨fresh, name, params⟩]
  | d :: ds =>
    if d.name = name then { d with params := params } :: ds
    else d :: declareIn name params fresh ds

/-- Declares a function, or changes the number of its parameters. -/
def declare (a : Assembler) (name : String) (params : Nat) : FunctionId × Assembler :=
  let fresh := a.declarations.length
  let id := match a.declaration? name with
    | some d => d.id
    | none => fresh
  (id, { a with declarations := declareIn name params fresh a.declarations })

/-- The name of a function, or its number after `#` if it is not declared. -/
def nameOf (a : Assembler) (id : FunctionId) : String :=
  match a.declarations.find? fun d => d.id = id with
  | some d => d.name
  | none => "#" ++ toString id

/-! ## Bodies under construction -/

def newBody (a : Assembler) (id : FunctionId) : Body where
  id := id
  name := a.nameOf id
  params := match a.declaration? (a.nameOf id) with
    | some d => d.params
    | none => 0
  slots := #[]
  regions := #[]
  valueCount := 0

/-- The body under construction for a function, opened if need be. -/
def draft (a : Assembler) (id : FunctionId) : Body :=
  (a.drafts.get? id).getD (a.newBody id)

def setDraft (a : Assembler) (id : FunctionId) (b : Body) : Assembler :=
  { a with drafts := a.drafts.insert id b }

def addRegion (a : Assembler) (id : FunctionId) (label : String) : Place × Assembler :=
  let b := a.draft id
  (⟨id, b.regions.size⟩, a.setDraft id { b with regions := b.regions.push ⟨label, #[], none⟩ })

def moveTo (a : Assembler) (place : Place) : Assembler := { a with cursor := some place }

def reserve (a : Assembler) (place : Place) (name : String) : SlotId × Assembler :=
  let b := a.draft place.function
  (b.slots.size,
    a.setDraft place.function { b with slots := b.slots.push ⟨name, place.region⟩ })

/-! ## At the insertion point -/

/-- Changes the region at the insertion point, if there is one. -/
def modifyRegion (a : Assembler) (f : Region → Region) : Assembler :=
  match a.cursor with
  | none => a
  | some c =>
    match a.drafts.get? c.function with
    | none => a
    | some b => a.setDraft c.function { b with regions := b.regions.modify c.region f }

/-- A value that nothing defines yet. Without an insertion point, values count down from the largest
number of 32 bits, and no code can use them. -/
def freshValue (a : Assembler) : ValueId × Assembler :=
  match a.cursor with
  | none => (0xffffffff - (a.detached + 1), { a with detached := a.detached + 1 })
  | some c =>
    let b := a.draft c.function
    (b.valueCount, a.setDraft c.function { b with valueCount := b.valueCount + 1 })

/-- Whether the region at the insertion point has its terminator. -/
def isClosed (a : Assembler) : Bool :=
  match a.cursor with
  | none => false
  | some c =>
    match (a.drafts.get? c.function).bind (·.regions[c.region]?) with
    | none => false
    | some r => r.terminator.isSome

/-- Appends an instruction, also to a region that has its terminator already. -/
def append (a : Assembler) (i : Inst) : Assembler :=
  a.modifyRegion fun r => { r with insts := r.insts.push i }

def emit (a : Assembler) (define : ValueId → Inst) : ValueId × Assembler :=
  let (v, a) := a.freshValue
  (v, a.append (define v))

/-- Gives the region its terminator, unless it has one. -/
def close (a : Assembler) (t : Terminator) : Assembler :=
  a.modifyRegion fun r => { r with terminator := r.terminator.or (some t) }

/-! ## Leaving construction -/

/-- Takes a function out of construction, and the insertion point out of the function. -/
def discard (a : Assembler) (id : FunctionId) : Assembler :=
  { a with
    drafts := a.drafts.erase id
    cursor := a.cursor.filter fun c => c.function ≠ id }

/-- The finished body of a function. Its number of parameters is the one that was declared last. -/
def finished (a : Assembler) (id : FunctionId) : Except FinishError Body :=
  match a.drafts.get? id with
  | none => .error (.noBody (a.nameOf id))
  | some b =>
    match b.regions.toList.find? fun r => r.terminator.isNone with
    | some r => .error (.unterminated b.name r.label)
    | none =>
      match a.declaration? b.name with
      | some d => .ok { b with params := d.params }
      | none => .ok b

/-- Finishes the body of a function. Whether or not it can be finished, it leaves construction. -/
def finish (a : Assembler) (id : FunctionId) : Except FinishError Body × Assembler :=
  (a.finished id, a.discard id)

instance : Emitter Assembler where
  declare := declare
  addRegion := addRegion
  moveTo := moveTo
  reserve := reserve
  constant a c := a.emit (.const · c)
  param a index := a.emit (.param · index)
  load a slot := a.emit (.load · slot)
  primitive a op lhs rhs := a.emit (.primitive · op lhs rhs)
  call a callee args := a.emit (.call · callee args)
  store a slot value := a.append (.store slot value)
  print a items := a.append (.print items)
  close := close
  isClosed := isClosed
  finish := finish
  discard := discard

@[simp] theorem emitter_isClosed (a : Assembler) : Emitter.isClosed a = a.isClosed := rfl

@[simp] theorem emitter_finish (a : Assembler) (id : FunctionId) : Emitter.finish a id = a.finish id := rfl

/-- The program of the given bodies. The entry function is the first one with the entry name. -/
def link (a : Assembler) (bodies : List Body) (entry : String) : Program where
  declarations := a.declarations
  bodies := bodies
  entry := (bodies.find? fun b => b.name = entry).map Body.id

end Assembler

end Funclet
