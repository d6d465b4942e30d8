/-!
# Ordered maps

A finite map that keeps its entries in the order in which their keys were first inserted. The view of
a map is `get?`; each operation below has a lemma that says what it does to that view.
-/

namespace Funclet

/-- A finite map from `κ` to `α`, in order of insertion. -/
structure OrderedMap (κ α : Type) where
  entries : List (κ × α)
deriving Repr

namespace OrderedMap

variable {κ α : Type} [DecidableEq κ]

def empty : OrderedMap κ α := ⟨[]⟩

instance : Inhabited (OrderedMap κ α) := ⟨empty⟩

def get? (m : OrderedMap κ α) (k : κ) : Option α :=
  (m.entries.find? fun e => e.1 = k).map Prod.snd

def contains (m : OrderedMap κ α) (k : κ) : Bool :=
  (m.get? k).isSome

/-- The entries with `k` bound to `v`: in place if `k` is bound already, else at the end. -/
def bind (k : κ) (v : α) : List (κ × α) → List (κ × α)
  | [] => [(k, v)]
  | e :: es => if e.1 = k then (k, v) :: es else e :: bind k v es

/-- Binds `k` to `v`. A key that is bound already keeps its place. -/
def insert (m : OrderedMap κ α) (k : κ) (v : α) : OrderedMap κ α :=
  ⟨bind k v m.entries⟩

/-- Unbinds `k`; the other entries keep their order. -/
def erase (m : OrderedMap κ α) (k : κ) : OrderedMap κ α :=
  ⟨m.entries.filter fun e => e.1 ≠ k⟩

def take (m : OrderedMap κ α) (n : Nat) : OrderedMap κ α :=
  ⟨m.entries.take n⟩

def size (m : OrderedMap κ α) : Nat := m.entries.length

def keys (m : OrderedMap κ α) : List κ := m.entries.map Prod.fst

def values (m : OrderedMap κ α) : List α := m.entries.map Prod.snd

@[simp] theorem get?_empty (k : κ) : (empty : OrderedMap κ α).get? k = none := rfl

theorem get?_cons (e : κ × α) (es : List (κ × α)) (k : κ) :
    (⟨e :: es⟩ : OrderedMap κ α).get? k = if e.1 = k then some e.2 else get? ⟨es⟩ k := by
  by_cases h : e.1 = k <;> simp [get?, h]

@[simp] theorem get?_insert (m : OrderedMap κ α) (k j : κ) (v : α) :
    (m.insert k v).get? j = if k = j then some v else m.get? j := by
  obtain ⟨es⟩ := m
  unfold insert
  induction es with
  | nil => simp [bind, get?_cons]
  | cons e es ih =>
    simp only [bind]
    split <;> grind [get?_cons]

@[simp] theorem get?_erase (m : OrderedMap κ α) (k j : κ) :
    (m.erase k).get? j = if k = j then none else m.get? j := by
  obtain ⟨es⟩ := m
  unfold erase
  induction es with
  | nil => simp [get?]
  | cons e es ih => grind [get?_cons]

end OrderedMap

end Funclet
