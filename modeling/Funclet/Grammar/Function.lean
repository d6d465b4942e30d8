import Funclet.Event
import Funclet.Grammar.Statement

/-!
# Reading functions

* `State.nextFunction`: reads the next function of a text with the operators in force.
* `readSource`: reads a whole text; the operators that it defines are in force behind their definition.

A `FUNC` starts an attempt to read a function, whatever was wrong before it, unless it stands where a
statement has to start outside of a block. There it is reported and passed over.
-/

namespace Funclet.Grammar

/-- The symbols that separate other things and so cannot be operators. -/
def isSeparator (c : Char) : Bool :=
  ['(', ')', '{', '}', ',', '"'].contains c

def operatorSymbol : Read Char := do
  match ← peek with
  | .symbol c =>
    if isSeparator c then fail .expectedOperator
    else do
      advance
      pure c
  | _ => fail .expectedOperator

/-- The precedence that a number states: an integer from 1 to 100. -/
def precedenceOf? (x : Float) : Option Nat :=
  (List.range' 1 100).find? fun n => Float.ofNat n == x

def precedence : Read Nat := do
  match ← peek with
  | .number x => do
    let pos ← here
    advance
    match precedenceOf? x with
    | some p => pure p
    | none => throw ⟨.invalidPrecedence x, pos⟩
  | _ => pure Operators.defaultPrecedence

/-- Reads the name of a function, or the keyword and the symbol of an operator. -/
def signature : Read (String × FunctionKind) := do
  match ← peek with
  | .ident name => do
    advance
    pure (name, .plain)
  | .keyword .unary => do
    advance
    let op ← operatorSymbol
    pure (unaryName op, .unary op)
  | .keyword .binary => do
    advance
    let op ← operatorSymbol
    let p ← precedence
    pure (binaryName op, .binary op p)
  | _ => fail .expectedFunctionName

/-- Reads one or more parameters, through the closing parenthesis. -/
def parametersFor : Nat → Read (List String)
  | 0 => fail (.expectedName .parameterList)
  | n + 1 => do
    let name ← expectName .parameterList
    if (← peek) = .symbol ')' then do
      advance
      pure [name]
    else do
      expect (.symbol ',') .parameterList
      let more ← parametersFor n
      pure (name :: more)

/-- Reads parameters behind an opening parenthesis, through the closing one. -/
def parameters : Read (List String) := do
  if (← peek) = .symbol ')' then do
    advance
    pure []
  else fun s => parametersFor s.fuel s

def prototype : Read Prototype := do
  let pos ← here
  let (name, kind) ← signature
  expect (.symbol '(') .prototype
  let params ← parameters
  pure ⟨pos, name, params, kind⟩

def function (ops : Operators) : Read Function := do
  advance
  let proto ← prototype
  let body ← statement ops
  pure ⟨proto, body⟩

inductive Attempt where
  | function (f : Function)
  /-- There were errors, which have been reported. -/
  | failed
  /-- There are no more functions. -/
  | ended

/-- Where a function starts, or the text ends. -/
def startsFunction : Token → Bool
  | .keyword .FUNC => true
  | .eof => true
  | _ => false

namespace State

/-- The state at the next `FUNC` or at the end of the text. Only the first of the tokens before it that
do not belong there is reported. -/
def toFunction (s : State) : State :=
  let s := s.skipUntil (· ≠ .invalid)
  if startsFunction s.token then s
  else (s.report ⟨.expectedFunction s.token, s.pos⟩).skipUntil startsFunction

/-- Reads the next function. After an error that ended the reading, the rest of the function is passed
over. -/
def nextFunction (ops : Operators) (s : State) : Attempt × State :=
  let s := s.toFunction
  if s.token = .eof then (.ended, s)
  else match function ops { s with failed := false } with
    | .ok f s => (if s.failed then .failed else .function f, s)
    | .error d s => (.failed, (s.report d).skipUntil startsFunction)

end State

/-- The functions of a text, and what happened while they were read. -/
structure Reading where
  functions : List Function
  journal : List Event

/-- The reading of a text whose start was read as `functions` and whose rest was read as `r`. -/
def Reading.after (functions : List Function) (journal : List Event) (r : Reading) : Reading :=
  ⟨functions ++ r.functions, journal ++ r.journal⟩

/-- Reads functions until the text ends; `n` bounds the number of attempts. -/
def readFor : Nat → Operators → State → Reading
  | 0, _, _ => ⟨[], []⟩
  | n + 1, ops, s =>
    let (attempt, s) := s.nextFunction ops
    let journal := s.reports.map Event.report
    let s := { s with reports := [] }
    match attempt with
    | .ended => ⟨[], journal⟩
    | .failed => (readFor n ops s).after [] journal
    | .function f =>
      (readFor n (ops.define f.proto.kind).1 s).after [f]
        (journal ++ (Note.ofKind f.proto.kind).map .note)

def readSource (escapes : Bool) (source : String) : Reading :=
  let s := State.ofScan (scan escapes source)
  readFor (s.ahead.length + 1) .initial s

def Reading.diagnostics (r : Reading) : List Diagnostic := r.journal.filterMap Event.diagnostic?

end Funclet.Grammar
