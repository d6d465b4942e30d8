import Funclet.Diagnostic
import Funclet.Operators

/-!
# Events

What a compilation tells as it goes on: diagnostics, and notes for those who want to follow it.

* `Note`: something worth a line in a log, with its `Note.level` and its wording.
* `Event`: a note or a diagnostic. The order of events is the order in which things happened.
-/

namespace Funclet

/-- How important a note is; the later, the more. -/
inductive Level where
  | trace
  | debug
  | info
  | warn
deriving DecidableEq, Repr, Inhabited

namespace Level

def label : Level → String
  | trace => "TRACE"
  | debug => "DEBUG"
  | info => "INFO"
  | warn => "WARN"

def rank : Level → Nat
  | trace => 0
  | debug => 1
  | info => 2
  | warn => 3

end Level

/-- Something worth a line in a log. -/
inductive Note where
  | binaryDefined (op : Char) (precedence : Nat)
  | unaryDefined (op : Char)
  | operatorRestored (undo : Operators.Undo)
  | placeholderMade (name : String) (arity : Nat)
  | placeholderMet (name : String)
  | functionLowered (name : String) (regions : Nat)
  | functionDiscarded (name : String) (cause : Cause)
  | neverDefined (name : String)
  | noEntry (name : String)
  | settingsLoaded (path : String)
deriving DecidableEq, Repr

namespace Note

def level : Note → Level
  | placeholderMade .. | placeholderMet _ => .trace
  | binaryDefined .. | unaryDefined _ | operatorRestored _ | functionLowered ..
  | functionDiscarded .. | settingsLoaded _ => .debug
  | noEntry _ => .info
  | neverDefined _ => .warn

def message : Note → String
  | binaryDefined op precedence =>
    "[ops] binary '" ++ op.toString ++ "' precedence " ++ toString precedence
  | unaryDefined op => "[ops] unary '" ++ op.toString ++ "'"
  | operatorRestored undo => "[ops] restored " ++ undo.render
  | placeholderMade name arity =>
    "[resolve] placeholder for '" ++ name ++ "' with " ++ toString arity ++ " parameters"
  | placeholderMet name => "[resolve] '" ++ name ++ "' reconciled with its placeholder"
  | functionLowered name regions =>
    "[lower] '" ++ name ++ "' lowered into " ++ toString regions ++ " regions"
  | functionDiscarded name cause => "[lower] '" ++ name ++ "' discarded: " ++ cause.message
  | neverDefined name => "[session] '" ++ name ++ "' is called but never defined"
  | noEntry name => "[session] no '" ++ name ++ "' function defined"
  | settingsLoaded path => "[config] loaded " ++ path

/-- Level and wording on one line. -/
def render (n : Note) : String := n.level.label ++ " " ++ n.message

/-- What is noted when an operator is entered into the table. -/
def ofKind : FunctionKind → List Note
  | .plain => []
  | .unary op => [unaryDefined op]
  | .binary op precedence => [binaryDefined op precedence]

end Note

inductive Event where
  | note (n : Note)
  | report (d : Diagnostic)
deriving DecidableEq, Repr

def Event.diagnostic? : Event → Option Diagnostic
  | report d => some d
  | note _ => none

def Event.note? : Event → Option Note
  | note n => some n
  | report _ => none

end Funclet
