import Funclet.OrderedMap

/-!
# Trees of files

* `FileError`: why a file cannot be read or written.
* `textOf`: the text of a file, which has to be UTF-8.
* `FileSystem`: what a program asks of a file system.
* `FileTree`: files and folders by their place below the root, as far as a program can see them, and
  the input that it is given.
* `FileTree.locate`: the place that a path leads to, one step at a time.
* `FileTree.read`, `FileTree.readInput`: the bytes at a path, and the input. The input has places in the
  tree as well; however it is read, nothing is left of it afterwards.
* `FileTree.write`, `FileTree.rename`: files made, replaced and moved. If that fails, the tree stays as it
  is.
* `FileTree.beside`: the path of a second file next to the one at a path.

A path is walked from the left. Every step starts in a folder, also the step that stays there (`.`, or
nothing between two slashes or after the last), so that `p/` and `p/.` are no names of a file `p`, and
`a/../p` leads nowhere unless `a` is a folder.
-/

namespace Funclet

inductive FileError where
  | missing
  | isFolder
  | notFolder
  | nameTooLong
  | notText
  | other (reason : String)
deriving DecidableEq, Repr

def FileError.message : FileError → String
  | missing => "No such file or directory (os error 2)"
  | isFolder => "Is a directory (os error 21)"
  | notFolder => "Not a directory (os error 20)"
  | nameTooLong => "File name too long (os error 36)"
  | notText => "stream did not contain valid UTF-8"
  | other reason => reason

def textOf (bytes : ByteArray) : Except FileError String :=
  match String.fromUTF8? bytes with
  | some s => .ok s
  | none => .error .notText

/-- What a program asks of a file system in the states `σ`. -/
structure FileSystem (σ : Type) where
  read : String → σ → Except FileError ByteArray × σ
  /-- Makes a file with the given bytes, or replaces those of the file at the path. -/
  write : String → ByteArray → σ → Except FileError Unit × σ
  /-- Moves a file to another path, also if there is a file already. -/
  rename : String → String → σ → Except FileError Unit × σ

/-- A place below the root: the names that lead to it. The root itself has none. -/
abbrev Location := List String

inductive FileTree.Entry where
  | file (bytes : ByteArray)
  | folder
  /-- The input of the program under a name. -/
  | input

/-- Files and folders by place. A place that leads to another one is a folder, listed or not. -/
structure FileTree where
  entries : OrderedMap Location FileTree.Entry
  /-- What is left of the input. -/
  input : ByteArray

namespace FileTree

/-- The folder in which a program starts. Its name is not spelled by any path, so a path leads there
only from there. -/
def home : Location := ["", ""]

/-- The most bytes that a name may have. -/
def maxName : Nat := 255

/-- The most bytes that a path may have. -/
def maxPath : Nat := 4095

/-- The folders below the root that every system has. -/
def sharedFolders : List Location :=
  ["bin", "boot", "dev", "etc", "home", "lib", "media", "mnt", "opt", "proc", "root", "run", "sbin",
    "srv", "sys", "tmp", "usr", "var"].map fun name => [name]

def inputPlaces : List Location :=
  [["dev", "stdin"], ["dev", "fd", "0"], ["proc", "self", "fd", "0"]]

/-- A tree with an empty home and the given input. -/
def initial (input : ByteArray) : FileTree where
  entries := ⟨(home :: sharedFolders).map (·, .folder) ++ [(["dev", "null"], .file .empty)] ++
    inputPlaces.map (·, .input)⟩
  input := input

/-- The names between the slashes of a path. -/
def steps (path : String) : List String := (path.toList.splitOn '/').map String.ofList

def put (t : FileTree) (p : Location) (bytes : ByteArray) : FileTree :=
  { t with entries := t.entries.insert p (.file bytes) }

/-- The tree with nothing at a place. The folder around it stays. -/
def clear (t : FileTree) (p : Location) : FileTree :=
  { t with entries := (t.entries.erase p).insert p.dropLast .folder }

/-- The tree with a file in the home folder. Slashes in its name divide the folders on the way. -/
def withFile (t : FileTree) (name : String) (bytes : ByteArray) : FileTree :=
  t.put (home ++ steps name) bytes

/-- The names in the home folder, in order. -/
def names (t : FileTree) : List String :=
  let inHome := t.entries.keys.filterMap fun p =>
    if home.isPrefixOf p then (p.drop home.length).head? else none
  inHome.eraseDups.mergeSort fun a b => a ≤ b

def find? (t : FileTree) (p : Location) : Option Entry :=
  match t.entries.get? p with
  | some e => some e
  | none => if t.entries.keys.any p.isPrefixOf then some .folder else none

/-- The place one step further. A step starts in a folder; `..` leads to the folder around it, and the
root is around itself. -/
def step (t : FileTree) (p : Location) (name : String) : Except FileError Location :=
  match t.find? p with
  | none => .error .missing
  | some (.file _) | some .input => .error .notFolder
  | some .folder =>
    if name = "" ∨ name = "." then .ok p
    else if name = ".." then .ok p.dropLast
    else if maxName < name.utf8ByteSize then .error .nameTooLong
    else .ok (p ++ [name])

/-- The place that a path leads to: from the root if it starts with a slash, else from home. There may
be nothing at that place. -/
def locate (t : FileTree) (path : String) : Except FileError Location :=
  if path = "" then .error .missing
  else if maxPath < path.utf8ByteSize then .error .nameTooLong
  else (steps path).foldlM t.step (if path.startsWith "/" then [] else home)

def lookup (t : FileTree) (path : String) : Except FileError Entry := do
  match t.find? (← t.locate path) with
  | none => .error .missing
  | some e => .ok e

def readInput (t : FileTree) : ByteArray × FileTree := (t.input, { t with input := .empty })

/-- Reads what is at a path. Only reading the input changes the tree. -/
def read (t : FileTree) (path : String) : Except FileError ByteArray × FileTree :=
  match t.lookup path with
  | .error e => (.error e, t)
  | .ok .folder => (.error .isFolder, t)
  | .ok (.file bytes) => (.ok bytes, t)
  | .ok .input => (.ok t.readInput.1, t.readInput.2)

/-- The place at a path, where a file is or may be made. -/
def place (t : FileTree) (path : String) : Except FileError Location := do
  let p ← t.locate path
  match t.find? p with
  | some .folder => .error .isFolder
  | some .input => .error (.other "Permission denied (os error 13)")
  | some (.file _) | none => .ok p

def write (t : FileTree) (path : String) (bytes : ByteArray) : Except FileError Unit × FileTree :=
  match t.place path with
  | .error e => (.error e, t)
  | .ok p => (.ok (), t.put p bytes)

def renamed (t : FileTree) (source target : String) : Except FileError FileTree := do
  let p ← t.place source
  let q ← t.place target
  match t.find? p with
  | some (.file bytes) => .ok ((t.clear p).put q bytes)
  | _ => .error .missing

def rename (t : FileTree) (source target : String) : Except FileError Unit × FileTree :=
  match t.renamed source target with
  | .error e => (.error e, t)
  | .ok t' => (.ok (), t')

def system : FileSystem FileTree where
  read path t := t.read path
  write path bytes t := t.write path bytes
  rename source target t := t.rename source target

/-- The path of the file beside the one at `path` that has `suffix` behind its name. Slashes and dots at
the end of the path do not count. Where a path ends in no name, the suffix is a name in that folder. -/
def beside (path suffix : String) : String :=
  match steps path with
  | [] | [""] => suffix
  | first :: more =>
    let more := (more.reverse.dropWhile fun name => name = "" ∨ name = ".").reverse
    let name := (first :: more).getLast (List.cons_ne_nil first more)
    "/".intercalate <|
      if name = "" ∨ name = "." ∨ name = ".." then first :: more ++ [suffix]
      else (first :: more).dropLast ++ [name ++ suffix]

end FileTree

end Funclet
