/-!
# JSON

* `Json`: the tree of a JSON text. Strings and numbers are kept as they are spelled, so that a tree
  holds all of a text but its blanks.
* `Json.ofString`, `Json.ofNat`, `Json.ofStrings`: trees for text, numbers and lists of text.
* `Json.compact`, `Json.pretty`: the text of a tree on one line, and with two spaces per level.
* `Json.sortKeys`: the same tree with the members of every object in order of their keys.
-/

namespace Funclet

mutual

inductive Json where
  | null
  | bool (value : Bool)
  | number (spelling : String)
  /-- What stands between the quotes, escapes and all. -/
  | string (spelling : String)
  | array (elems : List Json)
  | object (members : List Json.Member)

/-- A member of an object, its key without the quotes. -/
structure Json.Member where
  key : String
  value : Json

end

namespace Json

instance : Inhabited Json := ⟨null⟩
instance : Inhabited Member := ⟨⟨"", null⟩⟩

/-- A character as it is spelled in a string. -/
def escape (c : Char) : String :=
  if c = '"' then "\\\""
  else if c = '\\' then "\\\\"
  else if c = '\n' then "\\n"
  else if c = '\r' then "\\r"
  else if c = '\t' then "\\t"
  else if c = '\x08' then "\\b"
  else if c = '\x0c' then "\\f"
  else if c.toNat < 0x20 then
    "\\u00" ++ String.ofList [Nat.digitChar (c.toNat / 16), Nat.digitChar (c.toNat % 16)]
  else c.toString

/-- How a string spells the text `s`. -/
def spell (s : String) : String := String.join (s.toList.map escape)

def ofString (s : String) : Json := string (spell s)

def ofNat (n : Nat) : Json := number (toString n)

def ofStrings (l : List String) : Json := array (l.map ofString)

def ofMembers (l : List (String × Json)) : Json := object (l.map fun m => ⟨spell m.1, m.2⟩)

mutual

/-- The text of a tree without any blanks. -/
def compact : Json → String
  | null => "null"
  | bool b => if b then "true" else "false"
  | number s => s
  | string s => "\"" ++ s ++ "\""
  | array es => "[" ++ compactElems es ++ "]"
  | object ms => "\x7b" ++ compactMembers ms ++ "\x7d"
termination_by structural j => j

def compactElems : List Json → String
  | [] => ""
  | [e] => compact e
  | e :: es => compact e ++ "," ++ compactElems es
termination_by structural l => l

def compactMembers : List Member → String
  | [] => ""
  | [⟨k, v⟩] => "\"" ++ k ++ "\":" ++ compact v
  | ⟨k, v⟩ :: ms => "\"" ++ k ++ "\":" ++ compact v ++ "," ++ compactMembers ms
termination_by structural l => l

end

def newline (level : Nat) : String :=
  "\n" ++ String.ofList (List.replicate (2 * level) ' ')

mutual

/-- The text of a tree at the given level, one element or member on each line. -/
def prettyAt : Json → Nat → String
  | array (e :: es), level =>
    "[" ++ prettyElems (e :: es) (level + 1) ++ newline level ++ "]"
  | object (m :: ms), level =>
    "\x7b" ++ prettyMembers (m :: ms) (level + 1) ++ newline level ++ "\x7d"
  | j, _ => compact j
termination_by structural j => j

def prettyElems : List Json → Nat → String
  | [], _ => ""
  | [e], level => newline level ++ prettyAt e level
  | e :: es, level => newline level ++ prettyAt e level ++ "," ++ prettyElems es level
termination_by structural l => l

def prettyMembers : List Member → Nat → String
  | [], _ => ""
  | [⟨k, v⟩], level => newline level ++ "\"" ++ k ++ "\": " ++ prettyAt v level
  | ⟨k, v⟩ :: ms, level =>
    newline level ++ "\"" ++ k ++ "\": " ++ prettyAt v level ++ "," ++ prettyMembers ms level
termination_by structural l => l

end

/-- The text of a tree with two spaces per level. -/
def pretty (j : Json) : String := prettyAt j 0

mutual

/-- The tree with the members of every object in order of their keys. -/
def sortKeys : Json → Json
  | array es => array (sortKeysElems es)
  | object ms => object ((sortKeysMembers ms).mergeSort fun a b => a.key ≤ b.key)
  | j => j
termination_by structural j => j

def sortKeysElems : List Json → List Json
  | [] => []
  | e :: es => sortKeys e :: sortKeysElems es
termination_by structural l => l

def sortKeysMembers : List Member → List Member
  | [] => []
  | ⟨k, v⟩ :: ms => ⟨k, sortKeys v⟩ :: sortKeysMembers ms
termination_by structural l => l

end

end Json

end Funclet
