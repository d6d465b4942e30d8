import Funclet.Lowering.Expression

/-!
# Lowering statements

* `lowerStmt`: the code of a statement, at the insertion point. Every statement has a value, and a
  function that does not return before its end returns the value of its body.

The arms of an `IF` meet in a region behind it, to which the value of the arm travels in a slot. A loop
tests its condition before the first pass, and again in a region of its own after every pass, which is
also where `CONTINUE` goes.
-/

namespace Funclet.Lowering

variable {E : Type} [Emitter E]

/-- The code that computes a condition, puts its truth into `flag`, and branches on it. -/
def lowerTest (entry : Place) (test : Expr) (flag : SlotId) (yes no : Place) : CompileWith E Unit := do
  let v ← lowerExpr entry test
  let t ← truth v
  store flag t
  let current ← load flag
  close (.branchIf current yes.region no.region)

/-- The code of an arm of an `IF`, from the region `start` on: the value of the arm goes to the slot
`result`, and control to the region `merge`. -/
def lowerArm (start : Place) (result : SlotId) (merge : Place) (arm : CompileWith E ValueId) :
    CompileWith E Unit := do
  moveTo start
  let v ← inScope arm
  closeAfter (store result v) (.branch merge.region)

mutual

/-- The code of a statement in the function of `entry`, where `retest` is the region in which the
innermost loop tests its condition again. -/
def lowerStmt (entry : Place) (retest : Option Place) : Stmt → CompileWith E ValueId
  | .assign pos name value => do
    let v ← lowerExpr entry value
    let slot ← slotOf pos name
    store slot v
    pure v
  | .ret _ value => do
    let v ← lowerExpr entry value
    close (.ret v)
    deadRegion entry "after.return"
    pure v
  | .print _ items => do
    let vs ← lowerExprs entry items
    print vs
    zero
  | .again pos =>
    match retest with
    | none => throw ⟨.strayContinue, pos⟩
    | some target => do
      close (.branch target.region)
      deadRegion entry "after.continue"
      zero
  | .cond _ test yes none => do
    let v ← lowerExpr entry test
    let flag ← truth v
    let result ← reserve entry "if.result"
    let z ← zero
    store result z
    let yesRegion ← region entry "then"
    let merge ← region entry "merge"
    close (.branchIf flag yesRegion.region merge.region)
    lowerArm yesRegion result merge (lowerStmt entry retest yes)
    moveTo merge
    load result
  | .cond _ test yes (some no) => do
    let v ← lowerExpr entry test
    let flag ← truth v
    let result ← reserve entry "if.result"
    let z ← zero
    store result z
    let yesRegion ← region entry "then"
    let noRegion ← region entry "else"
    let merge ← region entry "merge"
    close (.branchIf flag yesRegion.region noRegion.region)
    lowerArm yesRegion result merge (lowerStmt entry retest yes)
    lowerArm noRegion result merge (lowerStmt entry retest no)
    moveTo merge
    load result
  | .loop _ test body => do
    let flag ← reserve entry "while.cond"
    let pass ← region entry "loop"
    let again ← region entry "loop.next"
    let after ← region entry "after.loop"
    lowerTest entry test flag pass after
    moveTo pass
    let _ ← inScope (lowerStmt entry (some again) body)
    closeAfter (pure ()) (.branch again.region)
    moveTo again
    lowerTest entry test flag pass after
    moveTo after
    zero
  | .block _ declared body => do
    let last ← inScope do
      lowerBindings entry declared
      lowerStmts entry retest body
    match last with
    | some v => pure v
    | none => zero
  | .letIn _ bindings body => inScope do
    lowerBindings entry bindings
    lowerStmt entry retest body
termination_by structural s => s

/-- The code of statements, one after the other. Their value is that of the last one. -/
def lowerStmts (entry : Place) (retest : Option Place) : List Stmt → CompileWith E (Option ValueId)
  | [] => pure none
  | s :: ss => do
    let v ← lowerStmt entry retest s
    let last ← lowerStmts entry retest ss
    pure (last.or (some v))
termination_by structural l => l

end

end Funclet.Lowering
