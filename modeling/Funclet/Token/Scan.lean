import Funclet.Decimal.Reading
import Funclet.Pos
import Funclet.Token

/-!
# Scanning

A source text is a sequence of gaps (blanks and comments) and lexemes. Each lexeme spells a token or
is reported as an error, and scanning goes on behind it either way.

* `gap`: how many characters of blanks and comments stand at the front of a text.
* `lexeme`: what the lexeme at the front of a text is, and how far it reaches.
* `scan`: all items of a text with their positions, and the position of its end.

Gaps and lexemes are measured by their lengths, so that nothing of the text can get lost between them,
and every position is that of a character of the text.
-/

namespace Funclet

/-- What stands at one place of a source text: a token, or the reason why there is none. -/
structure Item where
  pos : Pos
  reading : Except LexError Token
deriving Repr, Inhabited

/-- The items of a text in order, and the place behind its last character. -/
structure Scan where
  items : List Item
  ending : Pos
deriving Repr, Inhabited

namespace Scan

def isBlank (c : Char) : Bool :=
  c == ' ' || c == '\t' || c == '\r' || c == '\n'

/-- ASCII punctuation: every printable ASCII character but letters, digits and the space. -/
def isPunctuation (c : Char) : Bool :=
  0x21 ≤ c.toNat && c.toNat ≤ 0x7e && !c.isAlphanum

/-- How many characters of blanks and comments stand at the front of a text. A comment starts with
two slashes and ends before the newline; `comment` says that one has started. -/
def gap (comment : Bool) : List Char → Nat
  | [] => 0
  | c :: cs =>
    if comment then gap (c != '\n') cs + 1
    else if isBlank c then gap false cs + 1
    else if c = '/' ∧ cs.head? = some '/' then gap true cs + 1
    else 0

/-! ## Text literals -/

/-- How a text literal can go wrong. An unknown escape is reported where its backslash stands, the
given number of characters behind the opening quote. -/
inductive TextError where
  | unterminated
  | unknownEscape (offset : Nat) (char : Char)
deriving DecidableEq, Repr

/-- A text literal behind its opening quote: its length and its characters. -/
structure TextReading where
  length : Nat
  result : Except TextError (List Char)

/-- The reading of `n` characters that stand for `c`, and then of what `r` has read. -/
def TextReading.push (n : Nat) (c : Char) (r : TextReading) : TextReading where
  length := r.length + n
  result := match r.result with
    | .ok cs => .ok (c :: cs)
    | .error (.unknownEscape offset e) => .error (.unknownEscape (offset + n) e)
    | .error .unterminated => .error .unterminated

def unescape (c : Char) : Option Char :=
  if c = 'n' then some '\n'
  else if c = 't' then some '\t'
  else if c = '\\' then some '\\'
  else if c = '"' then some '"'
  else none

/-- How many characters are left of a text literal with an unknown escape: up to and including the
closing quote, or up to the end of the line. The character after a backslash never counts as either;
`escaped` says that a backslash stands right before. -/
def restOfText (escaped : Bool) : List Char → Nat
  | [] => 0
  | c :: cs =>
    if escaped then restOfText false cs + 1
    else if c = '\n' then 0
    else if c = '"' then 1
    else restOfText (c == '\\') cs + 1

/-- Reads a text literal behind its opening quote. It has to end on its line. -/
def readText (escapes : Bool) : List Char → TextReading
  | [] => ⟨0, .error .unterminated⟩
  | c :: cs =>
    if c = '\n' then ⟨0, .error .unterminated⟩
    else if c = '"' then ⟨1, .ok []⟩
    else if c ≠ '\\' ∨ escapes = false then (readText escapes cs).push 1 c
    else match cs with
      | [] => ⟨1, .error .unterminated⟩
      | e :: cs =>
        if e = '\n' then ⟨1, .error .unterminated⟩
        else match unescape e with
          | some d => (readText escapes cs).push 2 d
          | none => ⟨restOfText false cs + 2, .error (.unknownEscape 0 e)⟩

/-! ## Lexemes -/

/-- A lexeme: the number of its characters behind the first one, and what it spells. An error is
reported the given number of characters behind the start of the lexeme. -/
structure Lexeme where
  tail : Nat
  reading : Except (Nat × LexError) Token

def wordToken (word : List Char) : Token :=
  match Keyword.ofString? (String.ofList word) with
  | some k => .keyword k
  | none => .ident (String.ofList word)

/-- Whether a run of digits and dots spells a number: at most one dot, and not at the end. -/
def isNumeral (run : List Char) : Bool :=
  run.count '.' ≤ 1 && run.getLast? != some '.'

/-- The lexeme that starts with `c`, where `cs` follows and `c` starts no gap. -/
def lexeme (escapes : Bool) (c : Char) (cs : List Char) : Lexeme :=
  if c.isAlpha then
    let more := cs.takeWhile Char.isAlphanum
    ⟨more.length, .ok (wordToken (c :: more))⟩
  else if c.isDigit then
    let more := cs.takeWhile fun d => d.isDigit || d == '.'
    ⟨more.length,
      if isNumeral (c :: more) then .ok (.number (Decimal.ofDigits (c :: more)).nearest)
      else .error (0, .malformedNumber (String.ofList (c :: more)))⟩
  else if c = '"' then
    let r := readText escapes cs
    ⟨r.length, match r.result with
      | .ok s => .ok (.text (String.ofList s))
      | .error .unterminated => .error (0, .unterminatedText)
      | .error (.unknownEscape offset e) => .error (offset + 1, .unknownEscape e)⟩
  else if c = ':' then
    if cs.head? = some '=' then ⟨1, .ok .assign⟩ else ⟨0, .error (0, .loneColon)⟩
  else if isPunctuation c then ⟨0, .ok (.symbol c)⟩
  else ⟨0, .error (0, .unexpectedCharacter c)⟩

/-- The item that a lexeme is, where `cs` is the text from its first character on, at `p`. -/
def Lexeme.item (l : Lexeme) (p : Pos) (cs : List Char) : Item :=
  match l.reading with
  | .ok t => ⟨p, .ok t⟩
  | .error (offset, e) => ⟨p.after (cs.take offset), .error e⟩

/-! ## The whole text -/

def scanFrom (escapes : Bool) (p : Pos) (cs : List Char) : Scan :=
  let p := p.after (cs.take (gap false cs))
  match _h : cs.drop (gap false cs) with
  | [] => ⟨[], p⟩
  | c :: rest =>
    let l := lexeme escapes c rest
    let s := scanFrom escapes (p.after (c :: rest.take l.tail)) (rest.drop l.tail)
    ⟨l.item p (c :: rest) :: s.items, s.ending⟩
termination_by cs.length
decreasing_by
  have := congrArg List.length _h
  simp only [List.length_drop, List.length_cons] at this ⊢
  omega

end Scan

/-- The items of a source text. With `escapes`, a backslash in a text literal starts an escape. -/
def scan (escapes : Bool) (source : String) : Scan :=
  Scan.scanFrom escapes .start source.toList

end Funclet
