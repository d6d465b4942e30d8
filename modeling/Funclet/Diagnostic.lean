import Funclet.Code
import Funclet.Pos
import Funclet.Token

/-!
# Diagnostics

* `Cause`: everything that can be wrong with a source text.
* `Cause.stage`: the stage of compilation that finds it.
* `Cause.message`: its wording, here and nowhere else.
* `Diagnostic`: a cause and the place where it was found.
-/

namespace Funclet

inductive Stage where
  | lexer
  | parser
  | binding
  | signature
  | lowering
deriving DecidableEq, Repr, Inhabited

def Stage.label : Stage → String
  | lexer => "lexer"
  | parser => "parser"
  | binding => "binding"
  | signature => "signature"
  | lowering => "lowering"

/-- Where a particular token has to stand. -/
inductive Context where
  | prototype
  | parameterList
  | variableName
  | ifCondition
  | ifEnd
  | whileCondition
  | whileEnd
  | blockEnd
  | parenthesis
  | argumentList
deriving DecidableEq, Repr, Inhabited

def Context.phrase : Context → String
  | prototype => "in prototype"
  | parameterList => "or ')' in parameter list"
  | variableName => "after variable name"
  | ifCondition => "after IF condition"
  | ifEnd => "to close IF"
  | whileCondition => "after WHILE condition"
  | whileEnd => "to close WHILE"
  | blockEnd => "to close block"
  | parenthesis => "to close parenthesized expression"
  | argumentList => "or ')' in argument list"

inductive NameContext where
  | parameterList
  | varList
deriving DecidableEq, Repr, Inhabited

def NameContext.phrase : NameContext → String
  | parameterList => "in parameter list"
  | varList => "after 'VAR'"

inductive Fixity where
  | unary
  | binary
deriving DecidableEq, Repr, Inhabited

def Fixity.label : Fixity → String
  | unary => "unary"
  | binary => "binary"

def Fixity.arity : Fixity → Nat
  | unary => 1
  | binary => 2

/-- What can be wrong with a source text. -/
inductive Cause where
  | lexical (error : LexError)
  | expected (token : Token) (context : Context) (found : Token)
  | expectedName (context : NameContext) (found : Token)
  | expectedFunction (found : Token)
  | expectedFunctionName (found : Token)
  | expectedOperator (found : Token)
  | invalidPrecedence (value : Float)
  | notStatement (found : Token)
  | notExpression (found : Token)
  | unknownVariable (name : String)
  | argumentCount (name : String) (expected got : Nat)
  | entryArgumentCount (name : String) (expected got : Nat)
  | operatorArity (fixity : Fixity) (name : String) (got : Nat)
  | redefined (name : String)
  | inconsistentArguments (name : String) (atCalls inDefinition : Nat)
  | undefinedFunction (name : String)
  | unknownOperator (fixity : Fixity) (op : Char)
  | badDestination
  | strayContinue
  | unfinished (error : FinishError)
deriving DecidableEq, Repr, Inhabited

namespace Cause

def stage : Cause → Stage
  | lexical _ => .lexer
  | expected .. | expectedName .. | expectedFunction _ | expectedFunctionName _
  | expectedOperator _ | invalidPrecedence _ | notStatement _ | notExpression _ => .parser
  | unknownVariable _ => .binding
  | argumentCount .. | entryArgumentCount .. | operatorArity .. | redefined _
  | inconsistentArguments .. | undefinedFunction _ => .signature
  | unknownOperator .. | badDestination | strayContinue | unfinished _ => .lowering

def message : Cause → String
  | lexical e => e.message
  | expected t c found =>
    "expected '" ++ t.render ++ "' " ++ c.phrase ++ ", found '" ++ found.render ++ "'"
  | expectedName c found =>
    "expected identifier " ++ c.phrase ++ ", found '" ++ found.render ++ "'"
  | expectedFunction found => "expected 'FUNC' at top level, found '" ++ found.render ++ "'"
  | expectedFunctionName found =>
    "expected function name in prototype, found '" ++ found.render ++ "'"
  | expectedOperator found => "expected operator symbol, found '" ++ found.render ++ "'"
  | invalidPrecedence x =>
    "invalid precedence " ++ Decimal.render .plain x ++ ": must be an integer in 1..=100"
  | notStatement found => "unknown token '" ++ found.render ++ "' when expecting a statement"
  | notExpression found => "unknown token '" ++ found.render ++ "' when expecting an expression"
  | unknownVariable name => "unknown variable '" ++ name ++ "'"
  | argumentCount name want got =>
    "function '" ++ name ++ "' expects " ++ toString want ++ " arguments, got " ++ toString got
  | entryArgumentCount name want got =>
    "entry function '" ++ name ++ "' takes " ++ toString want ++ " arguments, got "
      ++ toString got
  | operatorArity fixity name got =>
    fixity.label ++ " operator '" ++ name ++ "' takes " ++ toString fixity.arity
      ++ " parameters, got " ++ toString got
  | redefined name => "function '" ++ name ++ "' is already defined"
  | inconsistentArguments name atCalls inDefinition =>
    "inconsistent arguments for '" ++ name ++ "': " ++ toString atCalls ++ " at call sites, "
      ++ toString inDefinition ++ " in definition"
  | undefinedFunction name => "undefined function '" ++ name ++ "'"
  | unknownOperator fixity op => "unknown " ++ fixity.label ++ " operator '" ++ op.toString ++ "'"
  | badDestination => "destination of '=' must be a variable"
  | strayContinue => "CONTINUE outside of a loop"
  | unfinished e => e.message

end Cause

/-- An error and its place. -/
structure Diagnostic where
  cause : Cause
  pos : Pos
deriving DecidableEq, Repr, Inhabited

namespace Diagnostic

def stage (d : Diagnostic) : Stage := d.cause.stage

/-- The wording without the place. -/
def message (d : Diagnostic) : String := d.cause.message

/-- Stage, place and wording on one line. -/
def render (d : Diagnostic) : String :=
  "[" ++ d.stage.label ++ "] line " ++ d.pos.render ++ ": " ++ d.message

end Diagnostic

end Funclet
