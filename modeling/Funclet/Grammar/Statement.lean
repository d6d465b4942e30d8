import Funclet.Grammar.Expression

/-!
# Reading statements

* `statement`: reads a statement.

A statement in a block that cannot be read is reported, and reading goes on where the next statement
may start; the function it stands in is then marked as failed. Everywhere else an error ends the
reading of the function.
-/

namespace Funclet.Grammar

def startsStatement : Token → Bool
  | .ident _ => true
  | .keyword k => [Keyword.RETURN, .PRINT, .CONTINUE, .IF, .WHILE, .VAR].contains k
  | .symbol c => c == '{'
  | _ => false

/-- The tokens at which reading goes on after an error in a block: those that start a statement and are
no names, those that end the block, the start of the next function, and the end of the text. -/
def resumes : Token → Bool
  | .keyword k => [Keyword.RETURN, .PRINT, .CONTINUE, .IF, .WHILE, .VAR, .FUNC].contains k
  | .symbol c => c == '{' || c == '}'
  | .eof => true
  | _ => false

/-- Consumes a token that can start no statement, and tells what is wrong: with that token, or else
with the one behind it if the text spells none there. -/
def stray : Read Diagnostic := fun s =>
  .ok (s.fault?.getD ⟨.notStatement s.token, s.pos⟩) s.next

/-- Reports an error in a statement of a block and looks for the next statement. -/
def recover (d : Diagnostic) : Read Unit :=
  update fun s => { s.report d with failed := true }.skipUntil resumes

/-- Reads the items of a `PRINT`. -/
def printItemsFor (ops : Operators) : Nat → Read (List Expr)
  | 0 => fail .notExpression
  | n + 1 => do
    let pos ← here
    let item ←
      match ← peek with
      | .text value => do
        advance
        pure (.text pos value)
      | _ => expression ops
    if (← peek) = .symbol ',' then do
      advance
      let more ← printItemsFor ops n
      pure (item :: more)
    else pure [item]

def printItems (ops : Operators) : Read (List Expr) := fun s => printItemsFor ops s.fuel s

/-- Reads the `VAR` lists at the head of a block. -/
def declarationsFor (ops : Operators) : Nat → Read (List Binding)
  | 0 => fail .notStatement
  | n + 1 => do
    if (← peek) = .keyword .VAR then do
      advance
      let first ← bindings ops
      let more ← declarationsFor ops n
      pure (first ++ more)
    else pure []

def declarations (ops : Operators) : Read (List Binding) := fun s => declarationsFor ops s.fuel s

mutual

def statementFor (ops : Operators) : Nat → Read Stmt
  | 0 => fail .notStatement
  | n + 1 => do
    let pos ← here
    match ← peek with
    | .ident name => do
      advance
      expect .assign .variableName
      let value ← expression ops
      pure (.assign pos name value)
    | .keyword .RETURN => do
      advance
      let value ← expression ops
      pure (.ret pos value)
    | .keyword .PRINT => do
      advance
      let items ← printItems ops
      pure (.print pos items)
    | .keyword .CONTINUE => do
      advance
      pure (.again pos)
    | .keyword .IF => do
      advance
      let test ← expression ops
      expect (.keyword .THEN) .ifCondition
      let yes ← statementFor ops n
      let no ←
        if (← peek) = .keyword .ELSE then do
          advance
          let no ← statementFor ops n
          pure (some no)
        else pure none
      expect (.keyword .FI) .ifEnd
      pure (.cond pos test yes no)
    | .keyword .WHILE => do
      advance
      let test ← expression ops
      expect (.keyword .DO) .whileCondition
      let body ← statementFor ops n
      expect (.keyword .DONE) .whileEnd
      pure (.loop pos test body)
    | .keyword .VAR => do
      advance
      let bindings ← bindings ops
      let body ← statementFor ops n
      pure (.letIn pos bindings body)
    | .symbol '{' => do
      advance
      let declared ← declarations ops
      let body ← blockFor ops n
      pure (.block pos declared body)
    | _ => do
      let d ← stray
      throw d
termination_by structural n => n

/-- Reads the statements of a block, through the closing brace. -/
def blockFor (ops : Operators) : Nat → Read (List Stmt)
  | 0 => fail .notStatement
  | n + 1 => do
    let token ← peek
    if token = .symbol '}' then do
      advance
      pure []
    else if token = .eof ∨ token = .keyword .FUNC then
      fail (.expected (.symbol '}') .blockEnd)
    else if token = .invalid then do
      update State.skip
      blockFor ops n
    else if startsStatement token then do
      match ← attempt (statementFor ops n) with
      | .ok stmt => do
        let more ← blockFor ops n
        pure (stmt :: more)
      | .error d => do
        recover d
        blockFor ops n
    else do
      let d ← stray
      update fun s => { s.report d with failed := true }
      blockFor ops n
termination_by structural n => n

end

def statement (ops : Operators) : Read Stmt := fun s => statementFor ops s.fuel s

end Funclet.Grammar
