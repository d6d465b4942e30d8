import Mathlib.Data.List.Nodup
import Mathlib.Data.List.Perm.Basic
import Funclet.OrderedMap

/-!
# Ordered maps: order, distinct keys, and taking changes back

* `find?_of_nodup_keys` : elements are found by their keys, if these are distinct;
* `entries_insert`, `erase_of_get?` : a new key goes to the end, and an absent one can be erased for free;
* `erase_insert`, `insert_insert` : a later change of a key covers an earlier one;
* `Distinct` : no key is bound twice; kept by every operation, and what makes `get?` membership
  (`get?_eq_some_iff`);
* `erase_insert_of_get?`, `take_of_entries`, `insert_erase_perm` : the three ways a map is put back to what it was,
  exactly or up to order;
* `mapWith` : a change of what the keys are bound to, which commutes with every operation.
-/

namespace Funclet

/-- In a list without repeated keys, the key of an element finds that element. -/
theorem find?_of_nodup_keys {α : Type*} {κ : Type} [DecidableEq κ] (key : α → κ) {l : List α}
    (hl : (l.map key).Nodup) {x : α} (hx : x ∈ l) : l.find? (fun y => key y = key x) = some x := by
  induction l with
  | nil => cases hx
  | cons y l ih =>
    rw [List.map_cons, List.nodup_cons] at hl
    rcases List.mem_cons.mp hx with rfl | hm
    · simp
    · have hne : key y ≠ key x := fun h => hl.1 (h ▸ List.mem_map_of_mem hm)
      rw [List.find?_cons_of_neg (by simpa using hne)]
      exact ih hl.2 hm

namespace OrderedMap

variable {κ α : Type} [DecidableEq κ]

/-! ## Absent keys -/

theorem get?_eq_none_iff (m : OrderedMap κ α) (k : κ) : m.get? k = none ↔ k ∉ m.keys := by
  rw [get?, keys, Option.map_eq_none_iff, List.find?_eq_none, List.mem_map, not_exists]
  refine forall_congr' fun e => ?_
  rw [not_and, decide_eq_true_eq]

/-- A map that binds nothing has no entries. -/
theorem eq_empty_of_get? {m : OrderedMap κ α} (h : ∀ k, m.get? k = none) : m = empty := by
  obtain ⟨es⟩ := m
  cases es with
  | nil => rfl
  | cons e es =>
    have he := h e.1
    rw [get?_cons, if_pos rfl] at he
    cases he

/-- A key that is not bound yet goes to the end. -/
theorem entries_insert (m : OrderedMap κ α) (k : κ) (v : α) (h : m.get? k = none) :
    (m.insert k v).entries = m.entries ++ [(k, v)] := by
  obtain ⟨es⟩ := m
  unfold insert
  induction es with
  | nil => rfl
  | cons e es ih =>
    rw [get?_cons] at h
    split at h
    · cases h
    · rename_i he
      simp only [bind, if_neg he, List.cons_append]
      exact congrArg _ (ih h)

theorem erase_of_get? (m : OrderedMap κ α) (k : κ) (h : m.get? k = none) : m.erase k = m := by
  obtain ⟨es⟩ := m
  unfold erase
  congr 1
  rw [List.filter_eq_self]
  intro e he
  have hk := (get?_eq_none_iff _ _).mp h
  simp only [decide_eq_true_eq]
  rintro rfl
  exact hk (List.mem_map_of_mem he)

/-- Erasing a key undoes a binding of it just as well. -/
theorem erase_insert (m : OrderedMap κ α) (k : κ) (v : α) : (m.insert k v).erase k = m.erase k := by
  obtain ⟨es⟩ := m
  unfold insert erase
  congr 1
  induction es with
  | nil => simp [bind]
  | cons e es ih =>
    simp only [bind]
    split
    · rename_i he
      simp [he]
    · rw [List.filter_cons, List.filter_cons, ih]

/-- Binding a new key and erasing it again changes nothing. -/
theorem erase_insert_of_get? (m : OrderedMap κ α) (k : κ) (v : α) (h : m.get? k = none) :
    (m.insert k v).erase k = m := by
  rw [erase_insert, erase_of_get? m k h]

theorem erase_erase (m : OrderedMap κ α) (k : κ) : (m.erase k).erase k = m.erase k :=
  erase_of_get? _ _ (by simp)

/-- Of two bindings of a key the second one stays. -/
theorem insert_insert (m : OrderedMap κ α) (k : κ) (v w : α) : (m.insert k v).insert k w = m.insert k w := by
  obtain ⟨es⟩ := m
  unfold insert
  congr 1
  induction es with
  | nil => simp [bind]
  | cons e es ih =>
    by_cases he : e.1 = k
    · simp [bind, he]
    · simp only [bind, if_neg he]
      exact congrArg _ ih

/-- Binding a key to what it is bound to changes nothing. -/
theorem insert_of_get? (m : OrderedMap κ α) (k : κ) (v : α) (h : m.get? k = some v) : m.insert k v = m := by
  obtain ⟨es⟩ := m
  unfold insert
  congr 1
  induction es with
  | nil => cases h
  | cons e es ih =>
    rw [get?_cons] at h
    simp only [bind]
    split at h
    · rename_i he
      rw [if_pos he, ← he, ← Option.some.inj h]
    · rename_i he
      rw [if_neg he]
      exact congrArg _ (ih h)

omit [DecidableEq κ] in
/-- The first entries of an extension are the map that was extended. -/
theorem take_of_entries {m n : OrderedMap κ α} {es : List (κ × α)} (h : n.entries = m.entries ++ es) :
    n.take m.size = m := by
  simp only [take, size, h, List.take_left]

/-! ## Distinct keys -/

def Distinct (m : OrderedMap κ α) : Prop := m.keys.Nodup

omit [DecidableEq κ] in
theorem distinct_empty : (empty : OrderedMap κ α).Distinct := List.nodup_nil

theorem Distinct.insert {m : OrderedMap κ α} (h : m.Distinct) (k : κ) (v : α) : (m.insert k v).Distinct := by
  by_cases hk : m.get? k = none
  · rw [Distinct, keys, entries_insert m k v hk, List.map_append, List.nodup_append]
    refine ⟨h, List.nodup_singleton _, ?_⟩
    intro a ha b hb
    simp only [List.map_cons, List.map_nil, List.mem_singleton] at hb
    rintro rfl
    exact (get?_eq_none_iff m k).mp hk (hb ▸ ha)
  · have hkeys : (m.insert k v).keys = m.keys := by
      obtain ⟨es⟩ := m
      clear h
      unfold OrderedMap.insert keys
      induction es with
      | nil => exact absurd rfl hk
      | cons e es ih =>
        rw [get?_cons] at hk
        simp only [bind]
        split at hk
        · rename_i he
          simp [he]
        · rename_i he
          simp only [if_neg he, List.map_cons]
          exact congrArg _ (ih hk)
    rw [Distinct, hkeys]
    exact h

theorem Distinct.erase {m : OrderedMap κ α} (h : m.Distinct) (k : κ) : (m.erase k).Distinct :=
  List.Nodup.sublist (List.Sublist.map _ List.filter_sublist) h

theorem get?_eq_some_iff {m : OrderedMap κ α} (h : m.Distinct) (k : κ) (v : α) :
    m.get? k = some v ↔ (k, v) ∈ m.entries := by
  obtain ⟨es⟩ := m
  induction es with
  | nil => simp [get?]
  | cons e es ih =>
    have hd : (⟨es⟩ : OrderedMap κ α).Distinct := (List.nodup_cons.mp h).2
    have hne : e.1 ∉ es.map Prod.fst := (List.nodup_cons.mp h).1
    rw [get?_cons, List.mem_cons]
    split
    · rename_i he
      constructor
      · rintro ⟨⟩
        exact Or.inl (by rw [← he])
      · rintro (rfl | hm)
        · rfl
        · exact absurd (he ▸ List.mem_map_of_mem hm) hne
    · rename_i he
      rw [ih hd]
      constructor
      · exact Or.inr
      · rintro (rfl | hm)
        · exact absurd rfl he
        · exact hm

/-- A key finds all that is bound to it. -/
theorem filter_key {m : OrderedMap κ α} (h : m.Distinct) (k : κ) :
    m.entries.filter (fun e => e.1 = k) = ((m.get? k).map fun v => (k, v)).toList := by
  obtain ⟨es⟩ := m
  induction es with
  | nil => rfl
  | cons e es ih =>
    have hd : (⟨es⟩ : OrderedMap κ α).Distinct := (List.nodup_cons.mp h).2
    have hne : e.1 ∉ es.map Prod.fst := (List.nodup_cons.mp h).1
    rw [get?_cons]
    by_cases he : e.1 = k
    · have hnone : (⟨es⟩ : OrderedMap κ α).get? k = none := (get?_eq_none_iff _ _).mpr (he ▸ hne)
      have hrest := ih hd
      rw [hnone] at hrest
      rw [List.filter_cons_of_pos (by simpa using he), if_pos he, hrest]
      simp [← he]
    · rw [List.filter_cons_of_neg (by simpa using he), if_neg he]
      exact ih hd

/-- An entry that is taken out and bound again only changes its place. -/
theorem insert_erase_perm {m : OrderedMap κ α} (h : m.Distinct) {k : κ} {v : α} (hk : m.get? k = some v) :
    ((m.erase k).insert k v).entries.Perm m.entries := by
  rw [entries_insert _ _ _ (by simp)]
  obtain ⟨es⟩ := m
  induction es with
  | nil => simp [get?] at hk
  | cons e es ih =>
    have hd : (⟨es⟩ : OrderedMap κ α).Distinct := (List.nodup_cons.mp h).2
    have hne : e.1 ∉ es.map Prod.fst := (List.nodup_cons.mp h).1
    rw [get?_cons] at hk
    split at hk
    · rename_i he
      obtain ⟨rfl, rfl⟩ : e.1 = k ∧ e.2 = v := ⟨he, Option.some.inj hk⟩
      have hes := congrArg entries (erase_of_get? ⟨es⟩ e.1 ((get?_eq_none_iff _ _).mpr hne))
      simp only [OrderedMap.erase] at hes ⊢
      rw [List.filter_cons_of_neg (by simp), hes]
      exact List.perm_append_singleton _ _
    · rename_i he
      simp only [OrderedMap.erase] at ih ⊢
      rw [List.filter_cons_of_pos (by simpa using he), List.cons_append]
      exact (ih hd hk).cons e

/-! ## Changing what is bound -/

/-- Changes what each key is bound to, in place. -/
def mapWith (g : κ → α → α) (m : OrderedMap κ α) : OrderedMap κ α := ⟨m.entries.map fun e => (e.1, g e.1 e.2)⟩

variable (g : κ → α → α) (m : OrderedMap κ α) (k : κ)

@[simp]
theorem get?_mapWith : (m.mapWith g).get? k = (m.get? k).map (g k) := by
  obtain ⟨es⟩ := m
  induction es with
  | nil => rfl
  | cons e es ih =>
    change get? ⟨(e.1, g e.1 e.2) :: _⟩ k = _
    rw [get?_cons, get?_cons]
    split
    · rename_i hk
      rw [← hk]
      rfl
    · exact ih

@[simp]
theorem contains_mapWith : (m.mapWith g).contains k = m.contains k := by
  rw [contains, contains, get?_mapWith, Option.isSome_map]

omit [DecidableEq κ] in
@[simp]
theorem size_mapWith : (m.mapWith g).size = m.size := List.length_map _

theorem mapWith_insert (v : α) : (m.insert k v).mapWith g = (m.mapWith g).insert k (g k v) := by
  obtain ⟨es⟩ := m
  unfold insert mapWith
  congr 1
  induction es with
  | nil => rfl
  | cons e es ih =>
    simp only [bind, List.map_cons]
    split
    · rfl
    · rw [List.map_cons, ih]

theorem mapWith_erase : (m.erase k).mapWith g = (m.mapWith g).erase k := by
  unfold erase mapWith
  rw [List.filter_map]
  rfl

omit [DecidableEq κ] in
theorem mapWith_take (n : Nat) : (m.take n).mapWith g = (m.mapWith g).take n := by
  unfold take mapWith
  rw [List.map_take]

omit [DecidableEq κ] in
theorem mapWith_eq_self {g : κ → α → α} {m : OrderedMap κ α} (h : ∀ e ∈ m.entries, g e.1 e.2 = e.2) :
    m.mapWith g = m := by
  obtain ⟨es⟩ := m
  unfold mapWith
  congr 1
  exact (List.map_congr_left fun e he => by rw [h e he]).trans (List.map_id' es)

end OrderedMap

end Funclet
