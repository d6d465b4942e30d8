import Mathlib.Data.List.Basic
import Funclet.Proofs.OrderedMap
import Funclet.Scopes

/-!
# Scopes are nested frames

* `Frames` : nested scopes, innermost first, each with its bindings, latest first; `Frames.lookup`;
* `Represents base s Γ` : the scopes `s` stand for the frames `Γ` over the bindings `base`, not only now but also
  after any number of frames has been closed;
* `Represents.enter`, `Represents.declare`, `Represents.leave` : the operations, frame by frame;
* `leave_of_frames`, `Represents.declare_base` : those that have no frame to work on.

The map of `s` holds only what is visible. What a frame hides is in its log, so the frames below the innermost one
can be seen only by closing it; hence the recursion in `Represents`.
-/

namespace Funclet

/-- Nested scopes, innermost first, each with its bindings, latest first. -/
abbrev Frames (α : Type) := List (List (String × α))

namespace Frames

variable {α : Type}

/-- What a name is bound to in the innermost frame that binds it. -/
def lookup (Γ : Frames α) (name : String) : Option α := Γ.flatten.lookup name

theorem lookup_declare (f : List (String × α)) (Γ : Frames α) (n : String) (a : α) (name : String) :
    lookup (((n, a) :: f) :: Γ) name = if n = name then some a else lookup (f :: Γ) name := by
  simp only [lookup, List.flatten_cons, List.cons_append, List.lookup_cons]
  by_cases h : n = name
  · simp [h]
  · rw [beq_false_of_ne (Ne.symm h), if_neg h]

end Frames

namespace Scopes

variable {α : Type}

/-- The same frames, and the same meaning of every name. -/
structure Alike (s t : Scopes α) : Prop where
  frames : s.frames = t.frames
  lookup : ∀ name, s.lookup name = t.lookup name

theorem restore_congr {m n : OrderedMap String α} (h : ∀ name, m.get? name = n.get? name)
    (e : String × Option α) (name : String) : (restore m e).get? name = (restore n e).get? name := by
  obtain ⟨k, _ | a⟩ := e <;> simp [restore, h]

theorem foldl_restore_congr (log : List (String × Option α)) {m n : OrderedMap String α}
    (h : ∀ name, m.get? name = n.get? name) (name : String) :
    (log.foldl restore m).get? name = (log.foldl restore n).get? name := by
  induction log generalizing m n with
  | nil => exact h name
  | cons e log ih => exact ih (restore_congr h e)

theorem Alike.leave {s t : Scopes α} (h : Alike s t) : Alike s.leave t.leave := by
  obtain ⟨m, fs⟩ := s
  obtain ⟨n, gs⟩ := t
  obtain rfl : fs = gs := h.frames
  cases fs with
  | nil => exact h
  | cons f fs => exact ⟨rfl, foldl_restore_congr f h.lookup⟩

/-- Closing a frame undoes the binding made last in it. -/
theorem leave_declare (s : Scopes α) (name : String) (a : α) : Alike (s.declare name a).leave s.leave ∨
    s.frames = [] := by
  obtain ⟨m, _ | ⟨f, fs⟩⟩ := s
  · exact Or.inr rfl
  · refine Or.inl ⟨rfl, foldl_restore_congr f ?_⟩
    intro k
    change (restore (m.insert name a) (name, m.get? name)).get? k = m.get? k
    rcases h : m.get? name with _ | b <;> simp only [restore, OrderedMap.get?_erase, OrderedMap.get?_insert]
    · by_cases hk : name = k
      · rw [if_pos hk, ← hk, h]
      · rw [if_neg hk, if_neg hk]
    · by_cases hk : name = k
      · rw [if_pos hk, ← hk, h]
      · rw [if_neg hk, if_neg hk]

/-- The scopes `s` stand for the frames `Γ` over the bindings `base`. -/
def Represents (base : List (String × α)) (s : Scopes α) : Frames α → Prop
  | [] => s.frames = [] ∧ ∀ name, s.lookup name = base.lookup name
  | f :: Γ => s.frames ≠ [] ∧ (∀ name, s.lookup name = Frames.lookup (f :: Γ ++ [base]) name) ∧
      Represents base s.leave Γ

theorem Represents.lookup {base : List (String × α)} {s : Scopes α} {Γ : Frames α} (h : Represents base s Γ)
    (name : String) : s.lookup name = Frames.lookup (Γ ++ [base]) name := by
  cases Γ with
  | nil => simpa [Frames.lookup] using h.2 name
  | cons f Γ => exact h.2.1 name

theorem Represents.congr {base : List (String × α)} {Γ : Frames α} :
    ∀ {s t : Scopes α}, Alike s t → Represents base s Γ → Represents base t Γ := by
  induction Γ with
  | nil =>
    intro s t hst h
    exact ⟨hst.frames ▸ h.1, fun name => (hst.lookup name).symm.trans (h.2 name)⟩
  | cons f Γ ih =>
    intro s t hst h
    exact ⟨hst.frames ▸ h.1, fun name => (hst.lookup name).symm.trans (h.2.1 name), ih hst.leave h.2.2⟩

theorem represents_empty : Represents [] (empty : Scopes α) [] :=
  ⟨rfl, fun _ => rfl⟩

theorem Represents.enter {base : List (String × α)} {s : Scopes α} {Γ : Frames α} (h : Represents base s Γ) :
    Represents base s.enter ([] :: Γ) :=
  ⟨List.cons_ne_nil _ _, h.lookup, h⟩

theorem Represents.leave {base : List (String × α)} {s : Scopes α} {f : List (String × α)} {Γ : Frames α}
    (h : Represents base s (f :: Γ)) : Represents base s.leave Γ :=
  h.2.2

theorem Represents.declare {base : List (String × α)} {s : Scopes α} {f : List (String × α)} {Γ : Frames α}
    (h : Represents base s (f :: Γ)) (name : String) (a : α) :
    Represents base (s.declare name a) (((name, a) :: f) :: Γ) := by
  refine ⟨?_, ?_, ?_⟩
  · have hne := h.1
    simp only [Scopes.declare]
    split
    · contradiction
    · exact List.cons_ne_nil _ _
  · intro k
    rw [List.cons_append, Frames.lookup_declare]
    have hk := h.2.1 k
    simp only [Scopes.lookup, Scopes.declare, OrderedMap.get?_insert] at hk ⊢
    split
    · rfl
    · exact hk
  · rcases leave_declare s name a with hl | hl
    · exact h.leave.congr ⟨hl.frames.symm, fun k => (hl.lookup k).symm⟩
    · exact absurd hl h.1

theorem leave_of_frames {s : Scopes α} (h : s.frames = []) : s.leave = s := by
  unfold Scopes.leave
  rw [h]

/-- A binding made while no frame is open is added to the base. -/
theorem Represents.declare_base {base : List (String × α)} {s : Scopes α} (h : Represents base s []) (name : String)
    (a : α) : Represents ((name, a) :: base) (s.declare name a) [] := by
  obtain ⟨hframes, hlookup⟩ := h
  refine ⟨by simp only [Scopes.declare, hframes], fun k => ?_⟩
  have hdeclare := Frames.lookup_declare base [] name a k
  simp only [Frames.lookup, List.flatten_cons, List.flatten_nil, List.append_nil] at hdeclare
  rw [hdeclare, ← hlookup k]
  exact OrderedMap.get?_insert s.bindings name k a

theorem Represents.length_frames {base : List (String × α)} {Γ : Frames α} :
    ∀ {s : Scopes α}, Represents base s Γ → s.frames.length = Γ.length := by
  induction Γ with
  | nil =>
    intro s h
    rw [h.1]
    rfl
  | cons f Γ ih =>
    intro s h
    obtain ⟨e, es, hes⟩ := List.exists_cons_of_ne_nil h.1
    have hleave : s.leave.frames = es := by
      unfold Scopes.leave
      rw [hes]
    have hlen := ih h.2.2
    rw [hleave] at hlen
    rw [hes, List.length_cons, List.length_cons, hlen]

end Scopes

end Funclet
