import Funclet.Compiler

/-!
# A reader that watches its progress

The reader again, with nothing to fall back on: a `Search` has an outcome only if it comes to an end by itself. It has
none where the depth that it is given is used up, and none where a loop is passed, or a descent entered, once more
before a lexeme has been consumed.

* `State.left` : the lexemes that are still to be consumed;
* `since s` : goes on only if a lexeme has been consumed since `s`; it stands before every further pass of a loop, and
  wherever a descent is entered again;
* `expression` … `function` : the reading steps;
* `nextFunction`, `readAll`, `compileAll` : an attempt to read a function, and all functions of a text, read or
  compiled.
-/

namespace Funclet.Grammar

/-- A reading step that may have no outcome. -/
abbrev Search := ExceptT Diagnostic (StateT State Option)

/-- The number of lexemes that are still to be consumed, the current one among them. -/
def State.left (s : State) : Nat := s.ahead.length + if s.token = .eof then 0 else 1

namespace Watched

/-- A step that ends in any case. -/
def lift {α : Type} (step : Read α) : Search α := fun s =>
  match step s with
  | .ok a s' => some (.ok a, s')
  | .error d s' => some (.error d, s')

/-- A step that does not end. -/
def unending {α : Type} : Search α := fun _ => none

def look : Search State := fun s => some (.ok s, s)

/-- Goes on only if a lexeme has been consumed since `s`. -/
def since (s : State) : Search Unit := fun t => if t.left < s.left then some (.ok (), t) else none

def attempt {α : Type} (step : Search α) : Search (Except Diagnostic α) := fun s =>
  match step s with
  | none => none
  | some (outcome, s') => some (.ok outcome, s')

def skipUntil (stop : Token → Bool) : Nat → Search Unit
  | 0 => unending
  | n + 1 => do
    let s ← look
    if stop s.token then pure ()
    else do
      lift (update State.skip)
      since s
      skipUntil stop n

/-! ## Expressions -/

mutual

def expression (ops : Operators) : Nat → Search Expr
  | 0 => unending
  | n + 1 => do
    let lhs ← operand ops n
    climb ops n 0 lhs
termination_by structural n => n

def climb (ops : Operators) : Nat → Nat → Expr → Search Expr
  | 0, _, _ => unending
  | n + 1, least, lhs => do
    let s ← look
    match s.token with
    | .symbol op =>
      match ops.precedence? (.symbol op) with
      | none => pure lhs
      | some precedence =>
        if precedence < least then pure lhs
        else do
          lift advance
          since s
          let operand ← operand ops n
          let rhs ←
            if (ops.precedence? (← lift peek)).any (precedence < ·) then do
              since s
              climb ops n (precedence + 1) operand
            else pure operand
          since s
          climb ops n least (.binary s.pos op lhs rhs)
    | _ => pure lhs
termination_by structural n => n

def operand (ops : Operators) : Nat → Search Expr
  | 0 => unending
  | n + 1 => do
    let s ← look
    match s.token with
    | .symbol op =>
      if ops.isUnary (.symbol op) then do
        lift advance
        since s
        let operand ← operand ops n
        pure (.unary s.pos op operand)
      else primary ops n
    | _ => primary ops n
termination_by structural n => n

def primary (ops : Operators) : Nat → Search Expr
  | 0 => unending
  | n + 1 => do
    let s ← look
    match s.token with
    | .number value => do
      lift advance
      pure (.number s.pos value)
    | .ident name => do
      lift advance
      if (← lift peek) = .symbol '(' then do
        lift advance
        since s
        let args ← arguments ops n
        pure (.call s.pos name args)
      else pure (.var s.pos name)
    | .symbol c =>
      if c = '(' then do
        lift advance
        since s
        let inner ← expression ops n
        lift (expect (.symbol ')') .parenthesis)
        pure inner
      else if c = '-' then do
        lift advance
        since s
        let operand ← operand ops n
        pure (.binary s.pos '-' (.number s.pos 0) operand)
      else lift (fail .notExpression)
    | .keyword .VAR => do
      lift advance
      since s
      let bindings ← bindings ops n
      since s
      let body ← expression ops n
      pure (.letIn s.pos bindings body)
    | _ => lift (fail .notExpression)
termination_by structural n => n

def arguments (ops : Operators) : Nat → Search (List Expr)
  | 0 => unending
  | n + 1 => do
    if (← lift peek) = .symbol ')' then do
      lift advance
      pure []
    else moreArguments ops n
termination_by structural n => n

def moreArguments (ops : Operators) : Nat → Search (List Expr)
  | 0 => unending
  | n + 1 => do
    let s ← look
    let arg ← expression ops n
    if (← lift peek) = .symbol ')' then do
      lift advance
      pure [arg]
    else do
      lift (expect (.symbol ',') .argumentList)
      since s
      let args ← moreArguments ops n
      pure (arg :: args)
termination_by structural n => n

def bindings (ops : Operators) : Nat → Search (List Binding)
  | 0 => unending
  | n + 1 => do
    let s ← look
    let name ← lift (expectName .varList)
    let init ←
      if (← lift peek) = .symbol '=' then do
        lift advance
        since s
        let value ← expression ops n
        pure (some value)
      else pure none
    if (← lift peek) = .symbol ',' then do
      lift advance
      since s
      let more ← bindings ops n
      pure (⟨s.pos, name, init⟩ :: more)
    else pure [⟨s.pos, name, init⟩]
termination_by structural n => n

end

/-! ## Statements -/

def printItems (ops : Operators) : Nat → Search (List Expr)
  | 0 => unending
  | n + 1 => do
    let s ← look
    let item ←
      match s.token with
      | .text value => do
        lift advance
        pure (.text s.pos value)
      | _ => expression ops n
    if (← lift peek) = .symbol ',' then do
      lift advance
      since s
      let more ← printItems ops n
      pure (item :: more)
    else pure [item]

def declarations (ops : Operators) : Nat → Search (List Binding)
  | 0 => unending
  | n + 1 => do
    let s ← look
    if s.token = .keyword .VAR then do
      lift advance
      let first ← bindings ops n
      since s
      let more ← declarations ops n
      pure (first ++ more)
    else pure []

mutual

def statement (ops : Operators) : Nat → Search Stmt
  | 0 => unending
  | n + 1 => do
    let s ← look
    match s.token with
    | .ident name => do
      lift advance
      lift (expect .assign .variableName)
      let value ← expression ops n
      pure (.assign s.pos name value)
    | .keyword .RETURN => do
      lift advance
      let value ← expression ops n
      pure (.ret s.pos value)
    | .keyword .PRINT => do
      lift advance
      let items ← printItems ops n
      pure (.print s.pos items)
    | .keyword .CONTINUE => do
      lift advance
      pure (.again s.pos)
    | .keyword .IF => do
      lift advance
      let test ← expression ops n
      lift (expect (.keyword .THEN) .ifCondition)
      since s
      let yes ← statement ops n
      let no ←
        if (← lift peek) = .keyword .ELSE then do
          lift advance
          since s
          let no ← statement ops n
          pure (some no)
        else pure none
      lift (expect (.keyword .FI) .ifEnd)
      pure (.cond s.pos test yes no)
    | .keyword .WHILE => do
      lift advance
      let test ← expression ops n
      lift (expect (.keyword .DO) .whileCondition)
      since s
      let body ← statement ops n
      lift (expect (.keyword .DONE) .whileEnd)
      pure (.loop s.pos test body)
    | .keyword .VAR => do
      lift advance
      let bindings ← bindings ops n
      since s
      let body ← statement ops n
      pure (.letIn s.pos bindings body)
    | .symbol '{' => do
      lift advance
      let declared ← declarations ops n
      since s
      let body ← block ops n
      pure (.block s.pos declared body)
    | _ => do
      let d ← lift stray
      throw d
termination_by structural n => n

def block (ops : Operators) : Nat → Search (List Stmt)
  | 0 => unending
  | n + 1 => do
    let s ← look
    if s.token = .symbol '}' then do
      lift advance
      pure []
    else if s.token = .eof ∨ s.token = .keyword .FUNC then
      lift (fail (.expected (.symbol '}') .blockEnd))
    else if s.token = .invalid then do
      lift (update State.skip)
      since s
      block ops n
    else if startsStatement s.token then do
      match ← attempt (statement ops n) with
      | .ok stmt => do
        since s
        let more ← block ops n
        pure (stmt :: more)
      | .error d => do
        lift (update fun s => { s.report d with failed := true })
        skipUntil resumes n
        since s
        block ops n
    else do
      let d ← lift stray
      lift (update fun s => { s.report d with failed := true })
      since s
      block ops n
termination_by structural n => n

end

/-! ## Functions -/

def moreParameters : Nat → Search (List String)
  | 0 => unending
  | n + 1 => do
    let s ← look
    let name ← lift (expectName .parameterList)
    if (← lift peek) = .symbol ')' then do
      lift advance
      pure [name]
    else do
      lift (expect (.symbol ',') .parameterList)
      since s
      let more ← moreParameters n
      pure (name :: more)

def parameters (n : Nat) : Search (List String) := do
  if (← lift peek) = .symbol ')' then do
    lift advance
    pure []
  else moreParameters n

def prototype (n : Nat) : Search Prototype := do
  let s ← look
  let (name, kind) ← lift signature
  lift (expect (.symbol '(') .prototype)
  let params ← parameters n
  pure ⟨s.pos, name, params, kind⟩

def function (ops : Operators) (n : Nat) : Search Function := do
  lift advance
  let proto ← prototype n
  let body ← statement ops n
  pure ⟨proto, body⟩

def toFunction : Nat → Search Unit
  | 0 => unending
  | n + 1 => do
    let s ← look
    if startsFunction s.token then pure ()
    else if s.token = .invalid then do
      lift (update State.skip)
      since s
      toFunction n
    else do
      lift (update fun s => s.report ⟨.expectedFunction s.token, s.pos⟩)
      skipUntil startsFunction n
      since s
      toFunction n

def nextFunction (ops : Operators) (n : Nat) : Search Attempt := do
  toFunction n
  let s ← look
  if s.token = .eof then pure .ended
  else do
    lift (update fun s => { s with failed := false })
    match ← attempt (function ops n) with
    | .ok f => do
      let s ← look
      pure (if s.failed then .failed else .function f)
    | .error d => do
      lift (update fun s => s.report d)
      skipUntil startsFunction n
      pure .failed

/-! ## Texts -/

/-- What the reader has reported, which it hands over. -/
def handOver : Search (List Diagnostic) := fun s => some (.ok s.reports, { s with reports := [] })

def readAll : Nat → Operators → Search Reading
  | 0, _ => unending
  | n + 1, ops => do
    let s ← look
    let attempt ← nextFunction ops n
    let journal := (← handOver).map Event.report
    match attempt with
    | .ended => pure ⟨[], journal⟩
    | .failed => do
      since s
      let rest ← readAll n ops
      pure (rest.after [] journal)
    | .function f => do
      since s
      let rest ← readAll n (ops.define f.proto.kind).1
      pure (rest.after [f] (journal ++ (Note.ofKind f.proto.kind).map .note))

def compileAll : Nat → Session → Search (List Body × Session)
  | 0, _ => unending
  | n + 1, session => do
    let s ← look
    let attempt ← nextFunction session.operators n
    let session := session.record ((← handOver).map .report)
    match attempt with
    | .ended => pure ([], session)
    | .failed => do
      since s
      compileAll n session
    | .function f => do
      since s
      let rest ← compileAll n (session.compileFunction f).2
      pure ((session.compileFunction f).1.toList ++ rest.1, rest.2)

end Watched

end Funclet.Grammar
