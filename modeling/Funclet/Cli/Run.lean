import Funclet.Cli.Options
import Funclet.Cli.Outcome
import Funclet.Code.Dump
import Funclet.Code.Listing
import Funclet.Compiler
import Funclet.Diagnostic.Dump
import Funclet.Settings.File

/-!
# The command line

* `Options.perform`: what a command does with a source text.
* `invoke`: what the words of a command line do, given a way to read files.
* `Source.read`: the way to read that goes with a tree of files.

Notes go to the error channel, and how many of them depends on the verbosity. Diagnostics go there as
well, or as JSON to the output channel.
-/

namespace Funclet.Cli

def shows (verbosity : Nat) (n : Note) : Bool := Level.warn.rank ≤ n.level.rank + verbosity

def noteLine (verbosity : Nat) (n : Note) : List Write :=
  if shows verbosity n then [.err ("[toyc] " ++ n.render)] else []

def diagnosticLine (json : Bool) (d : Diagnostic) : Write :=
  if json then .out d.dump.compact else .err d.render

namespace Options

def noteLines (o : Options) (journal : List Event) : List Write :=
  (journal.filterMap Event.note?).flatMap (noteLine o.verbosity)

/-- The lines for a journal in the order of its events. -/
def journalLines (o : Options) (journal : List Event) : List Write :=
  journal.flatMap fun e =>
    match e with
    | .note n => noteLine o.verbosity n
    | .report d => [diagnosticLine o.json d]

end Options

/-- One document with a value and the diagnostics, keys in order. -/
def document (key : String) (value : Json) (ds : List Diagnostic) : Json :=
  (Json.ofMembers [(key, value), ("errors", .array (ds.map Diagnostic.dump))]).sortKeys

/-- The number with blanks before it, four characters wide. -/
def padLeft (n : Nat) : String :=
  let s := toString n
  String.ofList (List.replicate (4 - s.length) ' ') ++ s

/-- The number with blanks behind it, three characters wide. -/
def padRight (n : Nat) : String :=
  let s := toString n
  s ++ String.ofList (List.replicate (3 - s.length) ' ')

def tokenLine (json : Bool) (p : Pos) (t : Token) : Write :=
  if json then
    .out (Json.ofMembers [("col", .ofNat p.col), ("line", .ofNat p.line),
      ("token", .ofString t.dump)]).compact
  else .out (padLeft p.line ++ ":" ++ padRight p.col ++ " " ++ t.dump)

def itemLine (json : Bool) (i : Item) : Write :=
  match i.reading with
  | .ok t => tokenLine json i.pos t
  | .error e => diagnosticLine json ⟨.lexical e, i.pos⟩

def resultJson : Value → Json
  | .number x => .ofFloat x
  | .text s => .ofString s

/-! ## The commands -/

namespace Options

def tokens (o : Options) (settings : Settings) (source : String) : Outcome :=
  let items := (scan settings.textEscapes source).items
  .done (items.all fun i => i.reading.isOk) (items.map (itemLine o.json))

def ast (o : Options) (settings : Settings) (source : String) : Outcome :=
  let r := Grammar.readSource settings.textEscapes source
  let functions := Json.array (r.functions.map (·.dump .ofFloat))
  let ds := r.diagnostics
  .done ds.isEmpty (o.noteLines r.journal ++
    if o.json then [.out (document "functions" functions ds).pretty]
    else .out functions.pretty :: ds.map (diagnosticLine false))

def check (o : Options) (settings : Settings) (source : String) : Outcome :=
  let c := compile settings source
  let functions := c.bodies.length
  let errors := c.diagnostics.length
  let entry := c.bodies.any fun b => b.name = settings.entry
  .done (errors = 0) (o.journalLines c.session.journal ++
    if o.json then
      [.out (Json.ofMembers [("entry", .bool entry), ("errors", .ofNat errors),
        ("functions", .ofNat functions)]).compact]
    else
      .err (toString functions ++ " function(s) compiled, " ++ toString errors ++ " error(s)")
        :: if entry then [] else [.err ("note: no '" ++ settings.entry ++ "' function defined")])

def ir (o : Options) (settings : Settings) (source : String) : Outcome :=
  let c := compile settings source
  let ds := c.diagnostics
  .done ds.isEmpty (o.noteLines c.session.journal ++
    if o.json then [.out (document "program" (c.program.dump .ofFloat) ds).pretty]
    else ⟨.out, c.program.listing⟩ :: ds.map (diagnosticLine false))

/-- The lines for a run that has failed. Of a source text with errors, those are all there is to tell. -/
def failureLines (o : Options) : Failure → List Write
  | .compile ds => ds.map (diagnosticLine o.json)
  | f =>
    if o.json then [.out (Json.ofMembers [("error", .ofString f.message)]).compact]
    else [.err ("Error: " ++ f.message)]

def resultLine (o : Options) (v : Value) : Write :=
  .out (if o.json then (Json.ofMembers [("result", resultJson v)]).compact else v.render)

def run (o : Options) (settings : Settings) (source : String) : Outcome :=
  let c := compile settings source
  let (result, output) := c.run settings.limits o.args none
  let ending := match result with
    | .ok v => Outcome.done true [o.resultLine v]
    | .error f => Outcome.done false (o.failureLines f)
  ending.after (o.noteLines c.session.journal ++ [⟨.out, output.render⟩])

def perform (o : Options) (settings : Settings) (source : String) : Outcome :=
  match o.command with
  | .tokens => o.tokens settings source
  | .ast => o.ast settings source
  | .check => o.check settings source
  | .ir => o.ir settings source
  | .run => o.run settings source

end Options

/-! ## The whole invocation -/

/-- Something that can be read: standard input or a file. -/
inductive Source where
  | input
  | file (path : String)
deriving DecidableEq, Repr

def Source.read : Source → StateM FileTree (Except FileError ByteArray)
  | .input => fun t => (.ok t.readInput.1, t.readInput.2)
  | .file path => fun t => t.read path

variable {m : Type → Type} [Monad m]

namespace Options

def source (o : Options) : Source := if o.file = "-" then .input else .file o.file

/-- The settings, and the lines that tell where they come from. -/
def settings (o : Options) (read : Source → m (Except FileError ByteArray)) :
    m (Except Outcome (Settings × List Write)) := do
  match o.config with
  | none => return .ok ({}, [])
  | some path =>
    match Settings.load Json.library (← read (.file path)) with
    | .ok s => return .ok (s, noteLine o.verbosity (.settingsLoaded path))
    | .error e =>
      return .error ⟨[.err ("[toyc] Failed to load config '" ++ path ++ "': " ++ e.message)], 2⟩

/-- What the options do. The settings are read before the source text. -/
def execute (o : Options) (read : Source → m (Except FileError ByteArray)) : m Outcome := do
  match ← o.settings read with
  | .error outcome => return outcome
  | .ok (settings, lines) =>
    match (← read o.source).bind textOf with
    | .ok source => return (o.perform settings source).after lines
    | .error e =>
      return Outcome.after lines
        ⟨[.err ("[toyc] Failed to read '" ++ o.file ++ "': I/O error: " ++ e.message)], 2⟩

end Options

/-! ## Usage -/

def Command.summary : Command → String
  | .tokens => "Print the token stream"
  | .ast => "Parse only and dump the functions as JSON"
  | .check => "Compile and report diagnostics"
  | .ir => "Compile and print the IR"
  | .run => "Compile and run the entry function"

def Command.operands : Command → String
  | .run => "<FILE> [ARGS]..."
  | _ => "<FILE>"

def usageLines : Option Command → List String
  | none => ["Usage: toyc [OPTIONS] <COMMAND>", "", "Commands:"]
    ++ Command.all.map (fun c => "  " ++ c.name
      ++ String.ofList (List.replicate (8 - c.name.length) ' ') ++ c.summary)
    ++ ["  help    Print this message or the help of the given subcommand(s)"]
  | some c => ["Usage: toyc " ++ c.name ++ " [OPTIONS] " ++ c.operands]

def flagsHelp : List String :=
  ["Options:",
    "      --config <CONFIG>  JSON config file (entry name, forward-reference policy, VM limits)",
    "      --json             Output raw JSON instead of formatted text",
    "  -v, --verbose...       More logging (-v info, -vv debug, -vvv trace)",
    "  -h, --help             Print help"]

def helpLines (command : Option Command) : List String :=
  [(command.map Command.summary).getD "Compiler front end for the toy language", ""]
    ++ usageLines command ++ [""] ++ flagsHelp
    ++ (if command.isNone then ["  -V, --version          Print version"] else [])

def Stop.outcome : Stop → Outcome
  | .version => ⟨[.out "toyc 0.1.0"], 0⟩
  | .help command => ⟨(helpLines command).map .out, 0⟩
  | .usage => ⟨(usageLines none).map .err, 2⟩

def invoke (words : List String) (read : Source → m (Except FileError ByteArray)) : m Outcome :=
  match Options.read words with
  | .ok o => o.execute read
  | .error stop => pure stop.outcome

end Funclet.Cli
