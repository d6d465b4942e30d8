import Funclet.Json

/-!
# Reading JSON

* `Json.ofText?`: the tree of a text, which has to be JSON and nothing else.
* `Json.unspell?`: the text that a string spells. A string can be well formed and spell no text: half
  of a surrogate pair alone stands for no character.

The reader walks along a list of characters and hands on what is left of it. Nested values are read
with fuel; two for each character are enough, since a value and a list of values are each begun at a
character of their own.
-/

namespace Funclet.Json

def isBlank (c : Char) : Bool :=
  c == ' ' || c == '\t' || c == '\n' || c == '\r'

def skipBlanks (cs : List Char) : List Char := cs.dropWhile isBlank

/-! ## Strings -/

def hexValue? (c : Char) : Option Nat :=
  if c.isDigit then some (c.toNat - '0'.toNat)
  else if 'a' ≤ c ∧ c ≤ 'f' then some (c.toNat - 'a'.toNat + 10)
  else if 'A' ≤ c ∧ c ≤ 'F' then some (c.toNat - 'A'.toNat + 10)
  else none

def hexValue4? (a b c d : Char) : Option Nat := do
  let a ← hexValue? a
  let b ← hexValue? b
  let c ← hexValue? c
  let d ← hexValue? d
  some (((16 * a + b) * 16 + c) * 16 + d)

/-- The character that a backslash and one letter stand for. -/
def unescape? (c : Char) : Option Char :=
  if c = '"' ∨ c = '\\' ∨ c = '/' then some c
  else if c = 'b' then some '\x08'
  else if c = 'f' then some '\x0c'
  else if c = 'n' then some '\n'
  else if c = 'r' then some '\r'
  else if c = 't' then some '\t'
  else none

/-- A string behind its opening quote: its spelling, and what is left behind its closing quote. -/
def spelling? : List Char → Option (List Char × List Char)
  | '\\' :: 'u' :: a :: b :: c :: d :: cs => do
    let _ ← hexValue4? a b c d
    let (s, rest) ← spelling? cs
    some ('\\' :: 'u' :: a :: b :: c :: d :: s, rest)
  | '\\' :: c :: cs => do
    let _ ← unescape? c
    let (s, rest) ← spelling? cs
    some ('\\' :: c :: s, rest)
  | '"' :: cs => some ([], cs)
  | c :: cs =>
    if c = '\\' ∨ c.toNat < 0x20 then none
    else (spelling? cs).map fun (s, rest) => (c :: s, rest)
  | [] => none

/-- A part of a string: a character, or the number of a code unit. -/
inductive Piece where
  | char (c : Char)
  | unit (n : Nat)
deriving DecidableEq, Repr

def pieces? : List Char → Option (List Piece)
  | '\\' :: 'u' :: a :: b :: c :: d :: cs => do
    let n ← hexValue4? a b c d
    (pieces? cs).map (.unit n :: ·)
  | '\\' :: c :: cs => do
    let d ← unescape? c
    (pieces? cs).map (.char d :: ·)
  | c :: cs => (pieces? cs).map (.char c :: ·)
  | [] => some []

/-- Whether a code unit is the first half of a pair. -/
def isHighHalf (n : Nat) : Bool := 0xd800 ≤ n && n < 0xdc00

/-- Whether a code unit is the second half of a pair. -/
def isLowHalf (n : Nat) : Bool := 0xdc00 ≤ n && n < 0xe000

/-- The characters that parts of a string stand for, the two halves of a pair being one. -/
def characters? : List Piece → Option (List Char)
  | [] => some []
  | .char c :: ps => (characters? ps).map (c :: ·)
  | .unit n :: .unit m :: ps =>
    if isHighHalf n then
      if isLowHalf m then
        (characters? ps).map (Char.ofNat (0x10000 + (n - 0xd800) * 0x400 + (m - 0xdc00)) :: ·)
      else none
    else if isLowHalf n then none
    else (characters? (.unit m :: ps)).map (Char.ofNat n :: ·)
  | .unit n :: ps =>
    if isHighHalf n || isLowHalf n then none
    else (characters? ps).map (Char.ofNat n :: ·)

def unspell? (spelling : String) : Option String :=
  ((pieces? spelling.toList).bind characters?).map String.ofList

/-! ## Numbers -/

/-- A run of digits, at least one, and what is left behind it. -/
def digits? (cs : List Char) : Option (List Char × List Char) :=
  let ds := cs.takeWhile Char.isDigit
  if ds = [] then none else some (ds, cs.dropWhile Char.isDigit)

/-- Digits without a needless zero in front. -/
def whole? (cs : List Char) : Option (List Char × List Char) := do
  let (ds, rest) ← digits? cs
  if ds.head? = some '0' ∧ ds ≠ ['0'] then none else some (ds, rest)

/-- A point and digits, or nothing. -/
def fraction? : List Char → Option (List Char × List Char)
  | '.' :: cs => (digits? cs).map fun (ds, rest) => ('.' :: ds, rest)
  | cs => some ([], cs)

/-- The mark of an exponent, its sign and its digits, or nothing. -/
def exponent? : List Char → Option (List Char × List Char)
  | [] => some ([], [])
  | e :: cs =>
    if e = 'e' ∨ e = 'E' then
      let (sign, cs) := match cs with
        | '+' :: cs => (['+'], cs)
        | '-' :: cs => (['-'], cs)
        | cs => ([], cs)
      (digits? cs).map fun (ds, rest) => (e :: sign ++ ds, rest)
    else some ([], e :: cs)

/-- A number: its spelling, and what is left behind it. -/
def number? (cs : List Char) : Option (List Char × List Char) := do
  let (sign, cs) := match cs with
    | '-' :: cs => (['-'], cs)
    | cs => ([], cs)
  let (ds, cs) ← whole? cs
  let (fraction, cs) ← fraction? cs
  let (exponent, cs) ← exponent? cs
  some (sign ++ ds ++ fraction ++ exponent, cs)

/-! ## Values -/

mutual

/-- A value at the front of `cs`, and what is left behind it. -/
def value? : Nat → List Char → Option (Json × List Char)
  | 0, _ => none
  | n + 1, cs =>
    match cs with
    | 'n' :: 'u' :: 'l' :: 'l' :: cs => some (.null, cs)
    | 't' :: 'r' :: 'u' :: 'e' :: cs => some (.bool true, cs)
    | 'f' :: 'a' :: 'l' :: 's' :: 'e' :: cs => some (.bool false, cs)
    | '"' :: cs => (spelling? cs).map fun (s, rest) => (.string (String.ofList s), rest)
    | '[' :: cs =>
      match skipBlanks cs with
      | ']' :: rest => some (.array [], rest)
      | cs => (elems? n cs).map fun (es, rest) => (.array es, rest)
    | '\x7b' :: cs =>
      match skipBlanks cs with
      | '\x7d' :: rest => some (.object [], rest)
      | cs => (members? n cs).map fun (ms, rest) => (.object ms, rest)
    | cs => (number? cs).map fun (s, rest) => (.number (String.ofList s), rest)
termination_by structural n => n

/-- Elements up to the end of their list. The first one starts at the front of `cs`. -/
def elems? : Nat → List Char → Option (List Json × List Char)
  | 0, _ => none
  | n + 1, cs => do
    let (e, cs) ← value? n cs
    match skipBlanks cs with
    | ',' :: cs => (elems? n (skipBlanks cs)).map fun (es, rest) => (e :: es, rest)
    | ']' :: rest => some ([e], rest)
    | _ => none
termination_by structural n => n

/-- Members up to the end of their object. The first one starts at the front of `cs`. -/
def members? : Nat → List Char → Option (List Member × List Char)
  | 0, _ => none
  | n + 1, cs =>
    match cs with
    | '"' :: cs => do
      let (key, cs) ← spelling? cs
      match skipBlanks cs with
      | ':' :: cs => do
        let (v, cs) ← value? n (skipBlanks cs)
        let m : Member := ⟨String.ofList key, v⟩
        match skipBlanks cs with
        | ',' :: cs => (members? n (skipBlanks cs)).map fun (ms, rest) => (m :: ms, rest)
        | '\x7d' :: rest => some ([m], rest)
        | _ => none
      | _ => none
    | _ => none
termination_by structural n => n

end

def ofText? (text : String) : Option Json :=
  let cs := text.toList
  match value? (2 * cs.length + 2) (skipBlanks cs) with
  | some (j, rest) => if skipBlanks rest = [] then some j else none
  | none => none

end Funclet.Json
