import Funclet.Json.Reading

/-!
# Values as JSON

* `Json.Codec`: how the values of a type stand in trees, both ways.
* `Json.Field`: a field of a record type.
* `Json.Library`: what a program that keeps values as JSON asks of a library. Codecs of record types are
  derived from their fields.
* `Json.library`: a library in which a record is an object or the list of its first fields. Members with
  other keys mean nothing.
-/

namespace Funclet.Json

/-- How the values of a type stand in trees. -/
structure Codec (α : Type) where
  encode : α → Json
  decode : Json → Option α

/-- A field of the record type `α`. -/
structure Field (α : Type) where
  key : String
  Value : Type
  codec : Codec Value
  get : α → Value
  set : Value → α → α

/-- Codecs, and texts of whatever has a codec. -/
structure Library where
  text : Codec String
  flag : Codec Bool
  /-- Natural numbers of at most 64 bits. -/
  count : Codec Nat
  /-- A record type by its fields. What a tree leaves out is taken from `default`. -/
  record : {α : Type} → (default : α) → List (Field α) → Codec α
  /-- The text of a value, one element or member on each line. -/
  toText : {α : Type} → Codec α → α → Option String
  ofText : {α : Type} → Codec α → String → Option α

/-! ## Reading -/

def text? : Json → Option String
  | string spelling => unspell? spelling
  | _ => none

def bool? : Json → Option Bool
  | bool b => some b
  | _ => none

/-- The largest number of 64 bits. -/
def maxCount : Nat := 0xffffffffffffffff

/-- The number of at most 64 bits that a tree is, written with digits only. -/
def count? : Json → Option Nat
  | number spelling =>
    let digits := spelling.toList
    let n := Nat.ofDigitChars 10 digits 0
    if digits.all Char.isDigit && n ≤ maxCount then some n else none
  | _ => none

/-- The members of an object with the texts that their keys spell. -/
def keyed? (ms : List Member) : Option (List (String × Json)) :=
  ms.mapM fun m => (unspell? m.key).map (·, m.value)

section Records

variable {α : Type}

/-- The record `a` in which a field is what a tree describes. -/
def Field.read (f : Field α) (j : Json) (a : α) : Option α := (f.codec.decode j).map (f.set · a)

/-- The record `a` changed by the members of an object, one after the other. -/
def readMembers (fields : List (Field α)) : List (String × Json) → α → Option α
  | [], a => some a
  | m :: ms, a =>
    match fields.find? fun f => f.key = m.1 with
    | some f => (f.read m.2 a).bind (readMembers fields ms)
    | none => readMembers fields ms a

/-- The record `a` changed by a list of its first fields. -/
def readElems : List (Field α) → List Json → α → Option α
  | _, [], a => some a
  | [], _ :: _, _ => none
  | f :: fields, e :: es, a => (f.read e a).bind (readElems fields es)

/-- The record that a tree describes. No field may stand twice. -/
def record? (default : α) (fields : List (Field α)) : Json → Option α
  | array es => readElems fields es default
  | object ms => do
    let members ← keyed? ms
    if fields.all fun f => (members.map Prod.fst).count f.key ≤ 1 then
      readMembers fields members default
    else none
  | _ => none

def ofRecord (fields : List (Field α)) (a : α) : Json :=
  .ofMembers (fields.map fun f => (f.key, f.codec.encode (f.get a)))

end Records

/-- The library that writes and reads the texts of trees. -/
def library : Library where
  text := ⟨ofString, text?⟩
  flag := ⟨bool, bool?⟩
  count := ⟨ofNat, count?⟩
  record default fields := ⟨ofRecord fields, record? default fields⟩
  toText codec a := some (codec.encode a).pretty
  ofText codec text := (ofText? text).bind codec.decode

end Funclet.Json
