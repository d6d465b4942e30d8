/-!
# Outcomes

What a command leaves behind: all that it writes, in order, and its exit code.
-/

namespace Funclet.Cli

inductive Channel where
  | out
  | err
deriving DecidableEq, Repr

structure Write where
  channel : Channel
  text : String
deriving DecidableEq, Repr

namespace Write

def out (line : String) : Write := ⟨.out, line ++ "\n"⟩

/-- A line for the user. -/
def err (line : String) : Write := ⟨.err, line ++ "\n"⟩

end Write

structure Outcome where
  writes : List Write
  exit : Nat
deriving DecidableEq, Repr

namespace Outcome

def written (o : Outcome) (c : Channel) : String :=
  String.join ((o.writes.filter fun w => w.channel = c).map Write.text)

/-- The outcome with something written before. -/
def after (writes : List Write) (o : Outcome) : Outcome := ⟨writes ++ o.writes, o.exit⟩

/-- The outcome of a command that did what it had to, or met errors in the source text. -/
def done (ok : Bool) (writes : List Write) : Outcome := ⟨writes, if ok then 0 else 1⟩

end Outcome

end Funclet.Cli
