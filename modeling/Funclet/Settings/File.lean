import Funclet.FileTree
import Funclet.Json.Codec
import Funclet.Settings

/-!
# Settings files

Settings are kept in files as JSON. What is left out of a file keeps its default.

* `readJson`, `writeJson`: values of any type from files and into them. A value goes to a second file first,
  which then takes the place of the first, so that there is no moment at which a file is half written.
* `Settings.codec`: the fields of settings and what they are called.
* `Settings.load`, `Settings.save`: settings from a file and into one.
-/

namespace Funclet

/-- Why a value cannot be read from a file or written to it. -/
inductive StoreError where
  | file (error : FileError)
  | json
deriving DecidableEq, Repr

def StoreError.message : StoreError → String
  | file e => "I/O error: " ++ e.message
  | json => "JSON error: the text does not describe settings"

section Values

variable {α σ : Type} (lib : Json.Library) (codec : Json.Codec α)

/-- The value in a file, given what reading it gave. -/
def readJson (file : Except FileError ByteArray) : Except StoreError α :=
  match file.bind textOf with
  | .error e => .error (.file e)
  | .ok text =>
    match lib.ofText codec text with
    | some a => .ok a
    | none => .error .json

/-- Writes a value to the file at a path, by way of a file beside it. -/
def writeJson (fs : FileSystem σ) (a : α) (path : String) (t : σ) : Except StoreError Unit × σ :=
  match lib.toText codec a with
  | none => (.error .json, t)
  | some text =>
    let temp := FileTree.beside path ".tmp"
    match fs.write temp text.toUTF8 t with
    | (.error e, t) => (.error (.file e), t)
    | (.ok _, t) =>
      match fs.rename temp path t with
      | (.error e, t) => (.error (.file e), t)
      | (.ok _, t) => (.ok (), t)

end Values

/-! ## Settings -/

variable (lib : Json.Library)

def Limits.codec : Json.Codec Limits :=
  lib.record {} [
    ⟨"max_call_depth", Nat, lib.count, maxCallDepth, fun n l => { l with maxCallDepth := n }⟩,
    ⟨"max_steps", Nat, lib.count, maxSteps, fun n l => { l with maxSteps := n }⟩]

def Settings.codec : Json.Codec Settings :=
  lib.record {} [
    ⟨"entry", String, lib.text, entry, fun name s => { s with entry := name }⟩,
    ⟨"strict_forward_refs", Bool, lib.flag, strictForwardRefs,
      fun b s => { s with strictForwardRefs := b }⟩,
    ⟨"text_escapes", Bool, lib.flag, textEscapes, fun b s => { s with textEscapes := b }⟩,
    ⟨"vm", Limits, Limits.codec lib, limits, fun l s => { s with limits := l }⟩]

def Settings.load (file : Except FileError ByteArray) : Except StoreError Settings :=
  readJson lib (Settings.codec lib) file

def Settings.save {σ : Type} (fs : FileSystem σ) (s : Settings) (path : String) (t : σ) :
    Except StoreError Unit × σ :=
  writeJson lib (Settings.codec lib) fs s path t

end Funclet
