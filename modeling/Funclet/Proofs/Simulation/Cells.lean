import Mathlib.Data.List.Forall2
import Funclet.Proofs.Evaluation
import Funclet.Proofs.Lowering.Drafts

/-!
# Variables in slots

* `Frames.Layout Γ n` : the frames `Γ` give every variable a slot of its own, among the first `n`;
* `Cells slots Γ env` : the slots hold the variables `env` where `Γ` says;
* `Cells.lookup`, `Cells.assign`, `Cells.declare` : the operations on variables;
* `Cells.outside` : slots without a variable can be used freely.
-/

namespace Funclet

/-! ## Layouts -/

namespace Frames

def slots (Γ : Frames SlotId) : List SlotId := Γ.flatten.map Prod.snd

/-- Every variable has a slot of its own, among the first `n`. -/
structure Layout (Γ : Frames SlotId) (n : Nat) : Prop where
  distinct : Γ.slots.Nodup
  bound : ∀ s ∈ Γ.slots, s < n

variable {Γ : Frames SlotId} {n : Nat}

theorem slots_cons (f : List (String × SlotId)) (Γ : Frames SlotId) : slots (f :: Γ) = f.map Prod.snd ++ slots Γ := by
  rw [slots, List.flatten_cons, List.map_append]
  rfl

theorem lookup_cons {α : Type} (f : List (String × α)) (Γ : Frames α) (name : String) :
    lookup (f :: Γ) name = (f.lookup name).or (lookup Γ name) := by
  rw [lookup, List.flatten_cons, List.lookup_append]
  rfl

theorem mem_of_lookup {α : Type} {name : String} {a : α} {f : List (String × α)} (h : f.lookup name = some a) :
    a ∈ f.map Prod.snd := by
  obtain ⟨l, k, hl, -⟩ := List.lookup_eq_some_iff.mp h
  rw [hl]
  simp

theorem mem_slots_of_lookup {name : String} {s : SlotId} (h : Γ.lookup name = some s) : s ∈ Γ.slots :=
  mem_of_lookup h

theorem Layout.mono (h : Γ.Layout n) {m : Nat} (hm : n ≤ m) : Γ.Layout m :=
  ⟨h.distinct, fun s hs => Nat.lt_of_lt_of_le (h.bound s hs) hm⟩

theorem Layout.enter (h : Γ.Layout n) : Layout ([] :: Γ) n := ⟨h.distinct, h.bound⟩

theorem Layout.leave {f : List (String × SlotId)} (h : Layout (f :: Γ) n) : Γ.Layout n := by
  obtain ⟨hd, hb⟩ := h
  rw [slots_cons] at hd hb
  exact ⟨(List.nodup_append.mp hd).2.1, fun s hs => hb s (List.mem_append_right _ hs)⟩

theorem Layout.fresh (h : Γ.Layout n) : n ∉ Γ.slots := fun hn => Nat.lt_irrefl n (h.bound n hn)

theorem Layout.declare (h : Γ.Layout n) (name : String) : (Γ.declare name n).Layout (n + 1) := by
  cases Γ with
  | nil => exact h.mono (Nat.le_succ n)
  | cons f Γ =>
    refine ⟨List.nodup_cons.mpr ⟨h.fresh, h.distinct⟩, ?_⟩
    intro s hs
    rcases List.mem_cons.mp hs with rfl | hs
    · exact Nat.lt_succ_self _
    · exact Nat.lt_succ_of_lt (h.bound s hs)

end Frames

/-! ## Cells -/

/-- The slot of a variable holds its value. -/
def Cell (slots : Array Value) (c : String × SlotId) (v : String × Value) : Prop :=
  c.1 = v.1 ∧ slots[c.2]? = some v.2

/-- The slots hold the variables `env` where `Γ` says. -/
def Cells (slots : Array Value) (Γ : Frames SlotId) (env : Frames Value) : Prop :=
  List.Forall₂ (List.Forall₂ (Cell slots)) Γ env

namespace Cells

variable {slots : Array Value} {Γ : Frames SlotId} {env : Frames Value} {name : String} {s : SlotId} {x : Value}

/-- Both sides bind the same names. -/
theorem lookup_frame {f : List (String × SlotId)} {g : List (String × Value)} (h : List.Forall₂ (Cell slots) f g)
    (name : String) : (f.lookup name = none ∧ g.lookup name = none) ∨
      ∃ s x, f.lookup name = some s ∧ g.lookup name = some x ∧ slots[s]? = some x := by
  induction h with
  | nil => exact Or.inl ⟨rfl, rfl⟩
  | @cons c v f g hc _ ih =>
    obtain ⟨k, s⟩ := c
    obtain ⟨k', x⟩ := v
    obtain ⟨rfl, hx⟩ := hc
    rw [List.lookup_cons, List.lookup_cons]
    cases name == k with
    | true => exact Or.inr ⟨s, x, rfl, rfl, hx⟩
    | false => exact ih

/-- A variable is where its name says. -/
theorem lookup (h : Cells slots Γ env) (hs : Γ.lookup name = some s) :
    ∃ x, env.lookup name = some x ∧ slots[s]? = some x := by
  rcases lookup_frame (List.rel_flatten h) name with ⟨hnone, -⟩ | ⟨s', x, hs', hx, hslot⟩
  · rw [Frames.lookup, hnone] at hs
    cases hs
  · rw [Frames.lookup, hs'] at hs
    cases hs
    exact ⟨x, hx, hslot⟩

theorem outside_frame {f : List (String × SlotId)} {g : List (String × Value)} (h : List.Forall₂ (Cell slots) f g)
    (hs : s ∉ f.map Prod.snd) (v : Value) : List.Forall₂ (Cell (slots.setIfInBounds s v)) f g := by
  induction h with
  | nil => exact .nil
  | @cons c w f g hc _ ih =>
    rw [List.map_cons, List.mem_cons, not_or] at hs
    refine .cons ⟨hc.1, ?_⟩ (ih hs.2)
    rw [Array.getElem?_setIfInBounds_ne hs.1]
    exact hc.2

/-- A slot without a variable can be used freely. -/
theorem outside (h : Cells slots Γ env) (hs : s ∉ Γ.slots) (v : Value) : Cells (slots.setIfInBounds s v) Γ env := by
  induction h with
  | nil => exact .nil
  | @cons f g Γ env hf _ ih =>
    rw [Frames.slots_cons, List.mem_append, not_or] at hs
    exact .cons (outside_frame hf hs.1 v) (ih hs.2)

theorem put_frame {f : List (String × SlotId)} {g : List (String × Value)} (h : List.Forall₂ (Cell slots) f g)
    (hd : (f.map Prod.snd).Nodup) (hs : f.lookup name = some s) (hsize : s < slots.size) (x : Value) :
    List.Forall₂ (Cell (slots.setIfInBounds s x)) f (Frames.put name x g) := by
  induction h with
  | nil => cases hs
  | @cons c v f g hc hf ih =>
    obtain ⟨k, s'⟩ := c
    obtain ⟨k', y⟩ := v
    obtain ⟨rfl, hy⟩ := hc
    rw [List.map_cons, List.nodup_cons] at hd
    rw [List.lookup_cons] at hs
    by_cases hk : k = name
    · subst hk
      rw [beq_self_eq_true] at hs
      cases hs
      rw [Frames.put, if_pos rfl]
      refine .cons ⟨rfl, ?_⟩ (outside_frame hf hd.1 _)
      rw [Array.getElem?_setIfInBounds_self_of_lt hsize]
    · rw [beq_false_of_ne (Ne.symm hk)] at hs
      rw [Frames.put, if_neg hk]
      refine .cons ⟨rfl, ?_⟩ (ih hd.2 hs)
      have hne : s ≠ s' := by
        rintro rfl
        exact hd.1 (Frames.mem_of_lookup hs)
      rw [Array.getElem?_setIfInBounds_ne hne]
      exact hy

/-- An assignment is a store to the slot of the variable. -/
theorem assign (h : Cells slots Γ env) (hd : Γ.slots.Nodup) (hs : Γ.lookup name = some s) (hsize : s < slots.size)
    (x : Value) : Cells (slots.setIfInBounds s x) Γ (env.assign name x) := by
  induction h with
  | nil => cases hs
  | @cons f g Γ env hf hΓ ih =>
    rw [Frames.slots_cons, List.nodup_append] at hd
    obtain ⟨hdf, hdΓ, hapart⟩ := hd
    rw [Frames.lookup_cons] at hs
    rcases lookup_frame hf name with ⟨hnone, hnone'⟩ | ⟨s', y, hs', hy, -⟩
    · rw [hnone, Option.none_or] at hs
      rw [Frames.assign, hnone', Option.isSome_none, if_neg Bool.false_ne_true]
      refine .cons (outside_frame hf ?_ _) (ih hdΓ hs)
      exact fun hmem => hapart _ hmem _ (Frames.mem_slots_of_lookup hs) rfl
    · rw [hs', Option.some_or] at hs
      cases hs
      rw [Frames.assign, hy, Option.isSome_some, if_pos rfl]
      refine .cons (put_frame hf hdf hs' hsize x) (outside hΓ ?_ _)
      exact fun hmem => hapart _ (Frames.mem_of_lookup hs') _ hmem rfl

/-- A new variable is where its value has been stored. -/
theorem declare (h : Cells slots Γ env) (hx : slots[s]? = some x) (name : String) :
    Cells slots (Γ.declare name s) (env.declare name x) := by
  cases h with
  | nil => exact .nil
  | cons hf hΓ => exact .cons (.cons ⟨rfl, hx⟩ hf) hΓ

theorem enter (h : Cells slots Γ env) : Cells slots ([] :: Γ) ([] :: env) := .cons .nil h

theorem leave {f : List (String × SlotId)} (h : Cells slots (f :: Γ) env) : Cells slots Γ env.tail := by
  cases h with
  | cons _ hΓ => exact hΓ

end Cells

end Funclet
