/-!
# Positions

A position is a line and a column, both counted from one. A column counts characters, and only a
newline starts a new line.
-/

namespace Funclet

structure Pos where
  line : Nat
  col : Nat
deriving DecidableEq, Repr, Inhabited

namespace Pos

def start : Pos := ⟨1, 1⟩

/-- The place after `c`, where `c` stands at `p`. -/
def next (p : Pos) (c : Char) : Pos :=
  if c = '\n' then ⟨p.line + 1, 1⟩ else ⟨p.line, p.col + 1⟩

/-- The place after the text `cs`, where `cs` starts at `p`. -/
def after (p : Pos) (cs : List Char) : Pos :=
  cs.foldl next p

@[simp] theorem after_nil (p : Pos) : p.after [] = p := rfl

@[simp] theorem after_cons (p : Pos) (c : Char) (cs : List Char) :
    p.after (c :: cs) = (p.next c).after cs := rfl

@[simp] theorem after_append (p : Pos) (cs ds : List Char) :
    p.after (cs ++ ds) = (p.after cs).after ds := by
  simp [after]

/-- Line and column with a colon between them. -/
def render (p : Pos) : String :=
  toString p.line ++ ":" ++ toString p.col

end Pos

end Funclet
