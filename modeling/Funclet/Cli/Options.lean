import Funclet.Decimal.Reading

/-!
# Options of the command line

* `Options`: a command with all it needs to know.
* `Reading.word`: what one more word means, given those before it.
* `Options.read`: the options that the words of a command line describe.

The flags for settings, for JSON and for verbosity may stand before the command and behind it. A flag
behind the command takes the place of the same flag before it, so that verbosity is not summed up.
-/

namespace Funclet.Cli

/-- What can be done with a source text. -/
inductive Command where
  | tokens
  | ast
  | check
  | ir
  | run
deriving DecidableEq, Repr

namespace Command

def all : List Command := [tokens, ast, check, ir, run]

def name : Command → String
  | tokens => "tokens"
  | ast => "ast"
  | check => "check"
  | ir => "ir"
  | run => "run"

def ofName? (word : String) : Option Command := all.find? fun c => c.name = word

end Command

/-- A command with all it needs to know. -/
structure Options where
  command : Command
  /-- The file with the source text; a dash stands for standard input. -/
  file : String
  args : List Float
  config : Option String
  json : Bool
  verbosity : Nat

/-- Why a command line does not lead to a command. -/
inductive Stop where
  | usage
  | version
  | help (command : Option Command)
deriving DecidableEq, Repr

/-! ## Words -/

inductive Word where
  /-- Two dashes: no flags behind it. -/
  | separator
  | long (name : String) (value : Option String)
  | short (letters : List Char)
  | plain
deriving DecidableEq, Repr

/-- What a word is by the look of it. A dash alone is no flag. -/
def Word.ofString (word : String) : Word :=
  match word.toList with
  | ['-', '-'] => separator
  | '-' :: '-' :: cs =>
    let value := cs.dropWhile (· != '=')
    long (String.ofList (cs.takeWhile (· != '=')))
      (if value = [] then none else some (String.ofList (value.drop 1)))
  | ['-'] => plain
  | '-' :: cs => short cs
  | _ => plain

/-- Whether what stands behind a dash makes a negative number: digits, with a point behind the first
one at the earliest, and with an exponent that has no sign. -/
def isNumber (cs : List Char) : Bool :=
  let isMark (c : Char) : Bool := c == 'e' || c == 'E'
  let front := cs.takeWhile fun c => !isMark c
  let back := cs.dropWhile fun c => !isMark c
  front.all (fun c => c.isDigit || c == '.') && front.count '.' ≤ 1 && front.head? != some '.'
    && (back.isEmpty || !front.isEmpty && back.length > 1 && (back.drop 1).all Char.isDigit)

/-! ## Flags -/

/-- The flags at one side of the command. -/
structure Flags where
  config : Option String := none
  json : Bool := false
  verbosity : Nat := 0
deriving DecidableEq, Repr

namespace Flags

/-- The flags with a file for the settings. There can be only one, and it has a name. -/
def setConfig (f : Flags) (file : String) : Except Stop Flags :=
  if f.config.isSome ∨ file = "" then .error .usage else .ok { f with config := some file }

/-- The flags with JSON asked for, which is done once. -/
def setJson (f : Flags) : Except Stop Flags :=
  if f.json then .error .usage else .ok { f with json := true }

def moreVerbose (f : Flags) : Flags := { f with verbosity := f.verbosity + 1 }

/-- The flags before the command with those behind it. -/
def override (before behind : Flags) : Flags where
  config := behind.config <|> before.config
  json := before.json || behind.json
  verbosity := if behind.verbosity = 0 then before.verbosity else behind.verbosity

end Flags

/-! ## Reading the words -/

/-- The words behind the command: which one it was, and what they have said. -/
structure Call where
  command : Command
  file : Option String := none
  args : List Float := []

/-- What the words so far have said. -/
structure Reading where
  before : Flags := {}
  call : Option Call := none
  behind : Flags := {}
  /-- Whether the last word is a flag for settings without its file. -/
  awaiting : Bool := false
  /-- Whether there are no more flags. -/
  separated : Bool := false
  /-- Whether help has been asked for by a word, and about what. -/
  helping : Option (Option Command) := none

namespace Reading

/-- The flags at this side of the command. -/
def flags (r : Reading) : Flags := if r.call.isSome then r.behind else r.before

def setFlags (r : Reading) (f : Flags) : Reading :=
  if r.call.isSome then { r with behind := f } else { r with before := f }

/-- Whether the next plain word is an argument of the entry function. -/
def takesNumber (r : Reading) : Bool :=
  match r.call with
  | some c => c.command = .run && c.file.isSome
  | none => false

def askHelp (r : Reading) : Except Stop Reading := .error (.help (r.call.map Call.command))

/-- Stops for the version, which is told before the command only. -/
def askVersion (r : Reading) : Except Stop Reading :=
  .error (if r.call.isSome then .usage else .version)

def letter (r : Reading) (c : Char) : Except Stop Reading :=
  if c = 'v' then .ok (r.setFlags r.flags.moreVerbose)
  else if c = 'h' then r.askHelp
  else if c = 'V' then r.askVersion
  else .error .usage

def long (r : Reading) (name : String) (value : Option String) : Except Stop Reading :=
  match name, value with
  | "config", none => .ok { r with awaiting := true }
  | "config", some file => (r.flags.setConfig file).map r.setFlags
  | "json", none => r.flags.setJson.map r.setFlags
  | "verbose", none => .ok (r.setFlags r.flags.moreVerbose)
  | "help", none => r.askHelp
  | "version", none => r.askVersion
  | _, _ => .error .usage

/-- A plain word: the command, then its file, and then arguments. -/
def operand (r : Reading) (word : String) : Except Stop Reading :=
  match r.call with
  | none =>
    if r.separated then .error .usage
    else if word = "help" then .ok { r with helping := some none }
    else match Command.ofName? word with
      | some c => .ok { r with call := some { command := c } }
      | none => .error .usage
  | some c =>
    if c.file.isNone then
      if word = "" then .error .usage else .ok { r with call := some { c with file := some word } }
    else if c.command = .run then
      match Decimal.float? word with
      | some x => .ok { r with call := some { c with args := c.args ++ [x] } }
      | none => .error .usage
    else .error .usage

def plain (r : Reading) (word : String) : Except Stop Reading :=
  if r.awaiting then (r.flags.setConfig word).map { r with awaiting := false }.setFlags
  else r.operand word

/-- One more word. A flag that waits for its file takes no other flag for it. -/
def word (r : Reading) (word : String) : Except Stop Reading :=
  match r.helping with
  | some none =>
    match Command.ofName? word with
    | some c => .ok { r with helping := some (some c) }
    | none => .error .usage
  | some (some _) => .error .usage
  | none =>
    if r.separated then r.operand word
    else match Word.ofString word with
      | .plain => r.plain word
      | .short letters =>
        if r.takesNumber && isNumber letters then r.plain word
        else if r.awaiting then .error .usage
        else letters.foldlM letter r
      | .long name value => if r.awaiting then .error .usage else r.long name value
      | .separator => if r.awaiting then .error .usage else .ok { r with separated := true }

def options (r : Reading) : Except Stop Options :=
  match r.helping, r.call with
  | some command, _ => .error (.help command)
  | none, some { command, file := some file, args } =>
    let flags := r.before.override r.behind
    if r.awaiting then .error .usage
    else .ok { command, file, args, config := flags.config, json := flags.json,
               verbosity := flags.verbosity }
  | none, _ => .error .usage

end Reading

def Options.read (words : List String) : Except Stop Options :=
  (words.foldlM Reading.word {}).bind Reading.options

end Funclet.Cli
