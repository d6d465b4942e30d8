import Funclet.Text.Printable

/-!
# Quoted text

How text and characters are written where they must be told apart from what is around them.

* `quote`: text between double quotes.
* `quoteChar`: one character between single quotes.
* `asciiEscape`: one character in ASCII, for messages about characters that may be unreadable.

All three share the short escapes for the tab, the line ends and the backslash. They differ in which
quote is escaped and in what else is written as a code point, `\u` and the number in braces.
-/

namespace Funclet.Text

/-- The code point of `c` in lower-case hexadecimal, in braces after `\u`. -/
def codePoint (c : Char) : String :=
  "\\u\x7b" ++ String.ofList (Nat.toDigits 16 c.toNat) ++ "\x7d"

def escapeIn (mark : Char) (c : Char) : String :=
  if c = '\x00' then "\\0"
  else if c = '\t' then "\\t"
  else if c = '\r' then "\\r"
  else if c = '\n' then "\\n"
  else if c = '\\' then "\\\\"
  else if c = mark then "\\" ++ mark.toString
  else if isPrintable c then c.toString
  else codePoint c

def quote (s : String) : String :=
  "\"" ++ String.join (s.toList.map (escapeIn '"')) ++ "\""

def quoteChar (c : Char) : String :=
  "'" ++ escapeIn '\'' c ++ "'"

/-- A character in ASCII: either quote is escaped, and so is all that is not printable ASCII. -/
def asciiEscape (c : Char) : String :=
  if c = '\t' then "\\t"
  else if c = '\r' then "\\r"
  else if c = '\n' then "\\n"
  else if c = '\'' then "\\'"
  else if c = '"' then "\\\""
  else if c = '\\' then "\\\\"
  else if 0x20 ≤ c.toNat ∧ c.toNat ≤ 0x7e then c.toString
  else codePoint c

end Funclet.Text
