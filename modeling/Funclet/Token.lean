import Funclet.Decimal.Layout
import Funclet.Text.Quoted

/-!
# Tokens

* `Keyword`: the reserved words.
* `Token`: the words, literals and symbols of the language, with two marks beside them: `invalid`
  stands where the text spells no token, and `eof` behind the last one.
* `LexError`: why a text spells no token.
-/

namespace Funclet

inductive Keyword where
  | FUNC
  | PRINT
  | RETURN
  | CONTINUE
  | IF
  | THEN
  | ELSE
  | FI
  | WHILE
  | DO
  | DONE
  | VAR
  | unary
  | binary
deriving DecidableEq, Repr, Inhabited

namespace Keyword

def all : List Keyword :=
  [FUNC, PRINT, RETURN, CONTINUE, IF, THEN, ELSE, FI, WHILE, DO, DONE, VAR, unary, binary]

def spelling : Keyword → String
  | FUNC => "FUNC"
  | PRINT => "PRINT"
  | RETURN => "RETURN"
  | CONTINUE => "CONTINUE"
  | IF => "IF"
  | THEN => "THEN"
  | ELSE => "ELSE"
  | FI => "FI"
  | WHILE => "WHILE"
  | DO => "DO"
  | DONE => "DONE"
  | VAR => "VAR"
  | unary => "unary"
  | binary => "binary"

def label : Keyword → String
  | FUNC => "Func"
  | PRINT => "Print"
  | RETURN => "Return"
  | CONTINUE => "Continue"
  | IF => "If"
  | THEN => "Then"
  | ELSE => "Else"
  | FI => "Fi"
  | WHILE => "While"
  | DO => "Do"
  | DONE => "Done"
  | VAR => "Var"
  | unary => "Unary"
  | binary => "Binary"

def ofString? (word : String) : Option Keyword :=
  all.find? fun k => k.spelling = word

end Keyword

inductive Token where
  | number (value : Float)
  | text (value : String)
  | ident (name : String)
  | keyword (word : Keyword)
  /-- The sign `:=`. -/
  | assign
  /-- Any other ASCII punctuation character, user operators among them. -/
  | symbol (char : Char)
  /-- Stands where the text spells no token. -/
  | invalid
  /-- Stands behind the last token. -/
  | eof
deriving DecidableEq, Repr, Inhabited

namespace Token

def render : Token → String
  | number x => Decimal.render .plain x
  | text s => Text.quote s
  | ident name => name
  | keyword k => k.spelling
  | assign => ":="
  | symbol c => c.toString
  | invalid => "<invalid>"
  | eof => "end of input"

def dump : Token → String
  | number x => "Number(" ++ Decimal.render .exact x ++ ")"
  | text s => "Text(" ++ Text.quote s ++ ")"
  | ident name => "Ident(" ++ Text.quote name ++ ")"
  | keyword k => k.label
  | assign => "Assign"
  | symbol c => "Char(" ++ Text.quoteChar c ++ ")"
  | invalid => "Invalid"
  | eof => "Eof"

end Token

/-- Why a text spells no token. -/
inductive LexError where
  | unterminatedText
  | malformedNumber (run : String)
  | unknownEscape (char : Char)
  | loneColon
  | unexpectedCharacter (char : Char)
deriving DecidableEq, Repr, Inhabited

def LexError.message : LexError → String
  | unterminatedText => "unterminated text literal"
  | malformedNumber run => "malformed number literal '" ++ run ++ "'"
  | unknownEscape c => "unknown escape sequence '\\" ++ c.toString ++ "'"
  | loneColon => "expected '=' after ':'"
  | unexpectedCharacter c => "unexpected character '" ++ Text.asciiEscape c ++ "'"

end Funclet
