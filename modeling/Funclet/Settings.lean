/-!
# Settings

The options of the compiler and the limits of the machine, with their defaults.
-/

namespace Funclet

/-- What stops a program that runs away. -/
structure Limits where
  /-- How many activations may be nested. -/
  maxCallDepth : Nat := 256
  /-- How many instructions and terminators may be executed. -/
  maxSteps : Nat := 10000000
deriving DecidableEq, Repr, Inhabited

structure Settings where
  entry : String := "main"
  /-- Whether a function that is called and never defined is an error. -/
  strictForwardRefs : Bool := true
  /-- Whether a backslash in a text literal starts an escape. -/
  textEscapes : Bool := true
  limits : Limits := {}
deriving DecidableEq, Repr, Inhabited

end Funclet
