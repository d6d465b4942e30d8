import Funclet.Proofs.Scopes

/-!
# Scopes after any operations

* `Layers` : the bindings made while no frame was open, and those of each open frame, with nothing hidden or put back;
* `Scopes.Operation`, `Scopes.after`, `Layers.after` : what can be done to scopes, in any order, and what it comes to on
  either side;
* `Scopes.Stands` : the scopes stand for the layers, now and behind every number of closed frames;
* `Stands.perform` : kept by every operation, also where there is no frame to close;
* `after_layers` : so names mean the same on both sides.
-/

namespace Funclet

/-- The bindings made while no frame was open, and those made in each open frame, innermost frame first. Later bindings
stand before earlier ones, and a frame that is closed is dropped. -/
structure Layers (α : Type) where
  base : List (String × α)
  frames : Frames α

namespace Scopes

variable {α : Type}

inductive Operation (α : Type) where
  | enter
  | leave
  | declare (name : String) (a : α)
  | lookup (name : String)
  | clear

def perform (s : Scopes α) : Operation α → Scopes α
  | .enter => s.enter
  | .leave => s.leave
  | .declare name a => s.declare name a
  | .lookup _ => s
  | .clear => .empty

def after (ops : List (Operation α)) : Scopes α := ops.foldl perform .empty

end Scopes

namespace Layers

variable {α : Type}

/-- What the innermost frame that binds a name binds it to, or else what it was bound to without a frame. -/
def lookup (l : Layers α) (name : String) : Option α :=
  (l.frames.findSome? (·.lookup name)).or (l.base.lookup name)

def perform (l : Layers α) : Scopes.Operation α → Layers α
  | .enter => ⟨l.base, [] :: l.frames⟩
  | .leave => ⟨l.base, l.frames.tail⟩
  | .declare name a =>
    match l.frames with
    | [] => ⟨(name, a) :: l.base, []⟩
    | f :: fs => ⟨l.base, ((name, a) :: f) :: fs⟩
  | .lookup _ => l
  | .clear => ⟨[], []⟩

def after (ops : List (Scopes.Operation α)) : Layers α := ops.foldl perform ⟨[], []⟩

theorem lookup_eq (l : Layers α) (name : String) : l.lookup name = Frames.lookup (l.frames ++ [l.base]) name := by
  obtain ⟨base, Γ⟩ := l
  unfold lookup Frames.lookup
  dsimp only
  induction Γ with
  | nil => simp
  | cons f Γ ih =>
    rw [List.cons_append, List.flatten_cons, List.lookup_append, ← ih, List.findSome?_cons]
    cases f.lookup name <;> rfl

end Layers

namespace Scopes

variable {α : Type} {s : Scopes α} {l : Layers α}

def Stands (s : Scopes α) (l : Layers α) : Prop := Represents l.base s l.frames

namespace Stands

theorem lookup (h : Stands s l) (name : String) : s.lookup name = l.lookup name := by
  rw [Layers.lookup_eq]
  exact Represents.lookup h name

theorem depth (h : Stands s l) : s.depth = l.frames.length := h.length_frames

/-- What one operation does. -/
theorem perform (h : Stands s l) (op : Operation α) : Stands (s.perform op) (l.perform op) := by
  obtain ⟨base, Γ⟩ := l
  cases op with
  | enter => exact Represents.enter h
  | leave =>
    cases Γ with
    | nil =>
      change Represents base s.leave []
      rw [leave_of_frames h.1]
      exact h
    | cons f Γ => exact Represents.leave h
  | declare name a =>
    cases Γ with
    | nil => exact Represents.declare_base h name a
    | cons f Γ => exact Represents.declare h name a
  | lookup name => exact h
  | clear => exact represents_empty

end Stands

theorem stands_after (ops : List (Operation α)) : Stands (after ops) (Layers.after ops) := by
  have hrun (s : Scopes α) (l : Layers α) (h : Stands s l) :
      Stands (ops.foldl Scopes.perform s) (ops.foldl Layers.perform l) := by
    induction ops generalizing s l with
    | nil => exact h
    | cons op ops ih => exact ih _ _ (h.perform op)
  exact hrun _ _ represents_empty

/-- Whatever has been done to scopes, a name means what the innermost open frame that binds it has bound it to last, or
else what it was bound to last while no frame was open. The depth is the number of open frames, and where there is none,
closing one changes nothing. -/
theorem after_layers (ops : List (Operation α)) :
    (∀ name, (after ops).lookup name = (Layers.after ops).lookup name) ∧
      (after ops).depth = (Layers.after ops).frames.length ∧
      ((after ops).depth = 0 → after (ops ++ [.leave]) = after ops) := by
  have h := stands_after ops
  refine ⟨h.lookup, h.depth, fun hdepth => ?_⟩
  rw [after, List.foldl_concat]
  exact leave_of_frames (List.length_eq_zero_iff.1 hdepth)

/-- Bindings with and without a frame, one of them made twice in its frame, and more frames closed than opened. -/
def unbalanced : List (Operation Nat) :=
  [.leave, .declare "x" 1, .enter, .declare "x" 2, .declare "x" 3, .declare "y" 4, .lookup "x", .leave]

theorem after_layers_unbalanced :
    (after unbalanced).depth = 0 ∧ (after (unbalanced ++ [.leave])).lookup "x" = some 1 ∧
      (after unbalanced).lookup "y" = none := by
  obtain ⟨hlookup, hdepth, hleave⟩ := after_layers unbalanced
  have hzero : (after unbalanced).depth = 0 := hdepth
  refine ⟨hzero, ?_, (hlookup "y").trans (by decide)⟩
  rw [hleave hzero, hlookup]
  decide

end Scopes

end Funclet
