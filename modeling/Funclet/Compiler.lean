import Funclet.Grammar.Function
import Funclet.Lowering.Function
import Funclet.Machine

/-!
# The compiler

* `Session.compileText`: the bodies of the functions in a text, each lowered as soon as it is read, so
  that the operators it defines are in force for what follows.
* `Session.conclude`: what is to be said at the end of a session.
* `compile`, `Compilation.ofFunctions`: a whole source text, or functions, with all that happened.
* `run`: compiles a source text and runs its entry function.
-/

namespace Funclet

namespace Session

variable {E : Type}

def compileFunction [Emitter E] (s : Session E) (f : Function) : Option Body × Session E :=
  match Lowering.lowerFunction f s with
  | .ok body s => (some body, s)
  | .error d s => (none, s.report d)

/-- Reads the next function and hands over what the reader has reported. -/
def readFunction (s : Session E) (r : Grammar.State) : Grammar.Attempt × Grammar.State × Session E :=
  let (attempt, r) := r.nextFunction s.operators
  (attempt, { r with reports := [] }, s.record (r.reports.map .report))

/-- Compiles functions until the text ends; `n` bounds the number of attempts. -/
def compileFor [Emitter E] : Nat → Grammar.State → Session E → List Body × Session E
  | 0, _, s => ([], s)
  | n + 1, r, s =>
    match s.readFunction r with
    | (.ended, _, s) => ([], s)
    | (.failed, r, s) => compileFor n r s
    | (.function f, r, s) =>
      let (body, s) := s.compileFunction f
      let (bodies, s) := compileFor n r s
      (body.toList ++ bodies, s)

def compileText [Emitter E] (s : Session E) (escapes : Bool) (source : String) :
    List Body × Session E :=
  let r := Grammar.State.ofScan (scan escapes source)
  compileFor (r.ahead.length + 1) r s

def compileFunctions [Emitter E] (s : Session E) : List Function → List Body × Session E
  | [] => ([], s)
  | f :: fs =>
    let (body, s) := s.compileFunction f
    let (bodies, s) := s.compileFunctions fs
    (body.toList ++ bodies, s)

/-- What is to be said about a function that has been called and not defined. -/
def missing (s : Session E) (p : Prototype) : Event :=
  if s.strict then .report ⟨.undefinedFunction p.name, p.pos⟩ else .note (.neverDefined p.name)

def conclude (s : Session E) : Session E :=
  let s := s.record (s.registry.unresolved.map s.missing)
  if s.registry.confirmed.contains s.registry.entry then s
  else s.note (.noEntry s.registry.entry)

def diagnostics (s : Session E) : List Diagnostic := s.journal.filterMap Event.diagnostic?

end Session

/-- A compiled source text: the bodies that could be compiled, and the session that compiled them. -/
structure Compilation where
  bodies : List Body
  session : Session

namespace Compilation

def program (c : Compilation) : Program :=
  c.session.assembler.link c.bodies c.session.registry.entry

/-- What is wrong with the source text. -/
def diagnostics (c : Compilation) : List Diagnostic := c.session.diagnostics

end Compilation

def compile (settings : Settings) (source : String) : Compilation :=
  let s := Session.initial settings.entry settings.strictForwardRefs
  let (bodies, s) := s.compileText settings.textEscapes source
  ⟨bodies, s.conclude⟩

/-- Compiles functions that have been read before, in a session of their own. -/
def Compilation.ofFunctions (entry : String) (strict : Bool) (fs : List Function) : Compilation :=
  let (bodies, s) := (Session.initial entry strict).compileFunctions fs
  ⟨bodies, s.conclude⟩

/-- Why a source text has no result. -/
inductive Failure where
  | compile (diagnostics : List Diagnostic)
  | missingEntry (name : String)
  | runtime (error : RuntimeError)
deriving Repr

def Failure.message : Failure → String
  | compile ds => "compilation failed with " ++ toString ds.length ++ " error(s)"
  | missingEntry name => "no entry function '" ++ name ++ "' defined"
  | runtime e => "runtime error: " ++ e.message

namespace Compilation

/-- The result of the entry function, and what was printed. Nothing runs if there is anything wrong
with the source text. -/
def run (c : Compilation) (limits : Limits) (args : List Float) (room : Option Nat) :
    Except Failure Value × Output :=
  let p := c.program
  let entry := c.session.registry.entry
  if c.diagnostics ≠ [] then (.error (.compile c.diagnostics), .empty room)
  else if p.entryBody?.isNone then (.error (.missingEntry entry), .empty room)
  else
    match Machine.runEntry p limits entry (args.map .number) (.initial room) with
    | .ok v m => (.ok v, m.output)
    | .error e m => (.error (.runtime e), m.output)

end Compilation

/-- Compiles a source text and runs its entry function; `room` bounds the bytes that can be printed. -/
def run (settings : Settings) (source : String) (args : List Float) (room : Option Nat) :
    Except Failure Value × Output :=
  (compile settings source).run settings.limits args room

end Funclet
