import Funclet.OrderedMap

/-!
# Scopes

Which names are bound at a place of a function, and to what. All bindings in force are in one map;
every open frame remembers what its own bindings have hidden, the latest first, and closing it puts
that back.

A name that is bound while no frame is open stays bound until everything is cleared.
-/

namespace Funclet

/-- The bindings in force and the open frames, innermost first. -/
structure Scopes (α : Type) where
  bindings : OrderedMap String α
  /-- For every open frame the names it has bound, each with what it was bound to before. -/
  frames : List (List (String × Option α))
deriving Repr

namespace Scopes

variable {α : Type}

def empty : Scopes α := ⟨.empty, []⟩

instance : Inhabited (Scopes α) := ⟨empty⟩

def lookup (s : Scopes α) (name : String) : Option α := s.bindings.get? name

def depth (s : Scopes α) : Nat := s.frames.length

def enter (s : Scopes α) : Scopes α := { s with frames := [] :: s.frames }

/-- Binds a name in the innermost frame. -/
def declare (s : Scopes α) (name : String) (a : α) : Scopes α where
  bindings := s.bindings.insert name a
  frames := match s.frames with
    | [] => []
    | f :: fs => ((name, s.lookup name) :: f) :: fs

/-- Puts back what a name was bound to. -/
def restore (m : OrderedMap String α) : String × Option α → OrderedMap String α
  | (name, some a) => m.insert name a
  | (name, none) => m.erase name

/-- Closes the innermost frame, if there is one. -/
def leave (s : Scopes α) : Scopes α :=
  match s.frames with
  | [] => s
  | f :: fs => ⟨f.foldl restore s.bindings, fs⟩

end Scopes

end Funclet
