import Funclet.Diagnostic
import Funclet.Token.Scan

/-!
# Reading states

A reader sees one token at a time. Its state is that token, the items ahead of it, and what has been
reported so far.

* `State`: the state of a reader.
* `Read`: a reading step, which may fail with a diagnostic. What it consumed stays consumed.
* `advance`: move to the next token; fails where the text spells none.
* `expect`, `expectName`: consume a particular token, or a name.
* `State.skip`, `State.skipUntil`: move on and report instead of failing.

The only ways to change a state are to move on, to report, and to mark the function being read as
failed.
-/

namespace Funclet.Grammar

structure State where
  token : Token
  pos : Pos
  /-- What comes after the current token. -/
  ahead : List Item
  ending : Pos
  /-- Whether an error in the function being read has been passed over. -/
  failed : Bool
  /-- What has been reported, in order. -/
  reports : List Diagnostic

namespace State

def ofScan (s : Scan) : State where
  token := .invalid
  pos := .start
  ahead := s.items
  ending := s.ending
  failed := false
  reports := []

instance : Inhabited State := ⟨ofScan default⟩

/-- The state at the next token. Behind the last one, the end of the text stays. -/
def next (s : State) : State :=
  match s.ahead with
  | [] => { s with token := .eof, pos := s.ending }
  | ⟨p, .ok t⟩ :: items => { s with token := t, pos := p, ahead := items }
  | ⟨p, .error _⟩ :: items => { s with token := .invalid, pos := p, ahead := items }

/-- What is wrong with the next item, if anything. -/
def fault? (s : State) : Option Diagnostic :=
  match s.ahead with
  | ⟨p, .error e⟩ :: _ => some ⟨.lexical e, p⟩
  | _ => none

def report (s : State) (d : Diagnostic) : State :=
  { s with reports := s.reports ++ [d] }

/-- The state at the next token, with a report if there is something wrong with it. -/
def skip (s : State) : State :=
  match s.fault? with
  | none => s.next
  | some d => s.next.report d

/-- Skips at most `n + 1` times, until `stop` holds of the current token. -/
def skipFor (stop : Token → Bool) : Nat → State → State
  | 0, s => if stop s.token then s else s.skip
  | n + 1, s => if stop s.token then s else skipFor stop n s.skip

/-- Skips until `stop` holds of the current token, as it has to do at the end of the text. -/
def skipUntil (stop : Token → Bool) (s : State) : State :=
  skipFor stop s.ahead.length s

/-- More steps than a descent into what is ahead can be deep: no level takes more than four steps
before it consumes a token. -/
def fuel (s : State) : Nat := 4 * s.ahead.length + 8

end State

abbrev Read := EStateM Diagnostic State

def fail {α : Type} (cause : Token → Cause) : Read α := fun s =>
  .error ⟨cause s.token, s.pos⟩ s

def advance : Read Unit := fun s =>
  match s.fault? with
  | none => .ok () s.next
  | some d => .error d s.next

def peek : Read Token := fun s => .ok s.token s

def here : Read Pos := fun s => .ok s.pos s

/-- The outcome of a step, whether or not it fails. -/
def attempt {α : Type} (step : Read α) : Read (Except Diagnostic α) := fun s =>
  match step s with
  | .ok a s => .ok (.ok a) s
  | .error d s => .ok (.error d) s

def update (f : State → State) : Read Unit := fun s => .ok () (f s)

def expect (t : Token) (context : Context) : Read Unit := do
  if (← peek) = t then advance else fail (.expected t context)

def expectName (context : NameContext) : Read String := do
  match ← peek with
  | .ident name => do
    advance
    pure name
  | _ => fail (.expectedName context)

end Funclet.Grammar
