import Mathlib.Data.List.Range
import Funclet.Code.Assembler
import Funclet.Proofs.OrderedMap

/-!
# Declarations

* `declaration?_declare` : what a declaration says about every name;
* `signatures_declare` : declarations are only added, and keep their numbers and names;
* `Indexed` : declarations are numbered from zero in order and have distinct names, so a number and a name find the
  same declaration (`Indexed.find?_id`).
-/

namespace Funclet

namespace Assembler

/-! ## Declaring -/

theorem find?_declareIn (name : String) (params : Nat) (fresh : FunctionId) (ds : List Declaration) (k : String) :
    (declareIn name params fresh ds).find? (fun d => d.name = k) =
      if name = k then
        some ⟨((ds.find? fun d => d.name = name).map Declaration.id).getD fresh, name, params⟩
      else ds.find? fun d => d.name = k := by
  induction ds with
  | nil =>
    by_cases h : name = k <;> simp [declareIn, h]
  | cons d ds ih =>
    by_cases hd : d.name = name
    · by_cases hk : name = k
      · subst hk
        simp [declareIn, hd]
      · have hdk : d.name ≠ k := fun h => hk (hd.symm.trans h)
        simp only [declareIn, if_pos hd, if_neg hk]
        rw [List.find?_cons_of_neg (by simpa using hdk), List.find?_cons_of_neg (by simpa using hdk)]
    · simp only [declareIn, if_neg hd]
      rw [List.find?_cons_of_neg (p := fun d : Declaration => decide (d.name = name)) (by simpa using hd)]
      by_cases hdk : d.name = k
      · have hk : name ≠ k := fun h => hd (hdk.trans h.symm)
        rw [if_neg hk, List.find?_cons_of_pos (by simpa using hdk), List.find?_cons_of_pos (by simpa using hdk)]
      · rw [List.find?_cons_of_neg (by simpa using hdk), List.find?_cons_of_neg (by simpa using hdk), ih]

theorem declare_fst (a : Assembler) (name : String) (params : Nat) :
    (a.declare name params).1 = ((a.declaration? name).map Declaration.id).getD a.declarations.length := by
  simp only [declare]
  cases a.declaration? name <;> rfl

/-- What is declared of every name after one declaration. -/
theorem declaration?_declare (a : Assembler) (name : String) (params : Nat) (k : String) :
    (a.declare name params).2.declaration? k =
      if name = k then some ⟨(a.declare name params).1, name, params⟩ else a.declaration? k := by
  rw [declare_fst]
  exact find?_declareIn name params _ a.declarations k

/-- The number that a name has keeps standing for it. -/
theorem declare_fst_of_declaration? {a : Assembler} {name : String} {d : Declaration}
    (h : a.declaration? name = some d) (params : Nat) : (a.declare name params).1 = d.id := by
  rw [declare_fst, h]
  rfl

/-- Number and name of a declaration, which never change. -/
def signature (d : Declaration) : FunctionId × String := (d.id, d.name)

theorem signatures_declareIn (name : String) (params : Nat) (fresh : FunctionId) (ds : List Declaration) :
    (declareIn name params fresh ds).map signature =
      ds.map signature ++ if name ∈ ds.map Declaration.name then [] else [(fresh, name)] := by
  induction ds with
  | nil => simp [declareIn, signature]
  | cons d ds ih =>
    by_cases hd : d.name = name
    · simp [declareIn, hd, signature]
    · simp only [declareIn, if_neg hd, List.map_cons, ih, List.mem_cons, Ne.symm hd, false_or, List.cons_append]

/-- Declarations are only added, and those there are keep their numbers and names. -/
theorem signatures_declare (a : Assembler) (name : String) (params : Nat) :
    (a.declare name params).2.declarations.map signature =
      a.declarations.map signature ++
        if name ∈ a.declarations.map Declaration.name then [] else [(a.declarations.length, name)] :=
  signatures_declareIn name params _ a.declarations

/-! ## Numbers and names -/

/-- Declarations are numbered from zero in order, and their names are distinct. -/
structure Indexed (a : Assembler) : Prop where
  ids : a.declarations.map Declaration.id = List.range a.declarations.length
  names : (a.declarations.map Declaration.name).Nodup

theorem indexed_empty : Indexed empty := ⟨rfl, List.nodup_nil⟩

theorem Indexed.declare {a : Assembler} (h : Indexed a) (name : String) (params : Nat) :
    Indexed (a.declare name params).2 := by
  have hs := signatures_declare a name params
  have hids := congrArg (List.map Prod.fst) hs
  have hnames := congrArg (List.map Prod.snd) hs
  have hlen := congrArg List.length hs
  simp only [List.map_append, List.map_map, List.length_append, List.length_map] at hids hnames hlen
  change (a.declare name params).2.declarations.map Declaration.id = a.declarations.map Declaration.id ++ _ at hids
  change (a.declare name params).2.declarations.map Declaration.name =
    a.declarations.map Declaration.name ++ _ at hnames
  split at hids
  · rename_i hmem
    simp only [if_pos hmem, List.map_nil, List.append_nil, List.length_nil, Nat.add_zero] at hids hnames hlen
    exact ⟨by rw [hids, hlen, h.ids], by rw [hnames]; exact h.names⟩
  · rename_i hmem
    simp only [if_neg hmem, List.map_cons, List.map_nil, List.length_singleton] at hids hnames hlen
    refine ⟨by rw [hids, hlen, h.ids, List.range_succ], ?_⟩
    rw [hnames]
    refine h.names.append (List.nodup_singleton _) ?_
    rw [List.disjoint_singleton]
    exact hmem

theorem declaration?_name {a : Assembler} {name : String} {d : Declaration} (h : a.declaration? name = some d) :
    d.name = name := by
  simpa using List.find?_some h

theorem Indexed.declaration?_of_mem {a : Assembler} (h : Indexed a) {d : Declaration} (hd : d ∈ a.declarations) :
    a.declaration? d.name = some d :=
  find?_of_nodup_keys Declaration.name h.names hd

/-- A declaration is found by its number. -/
theorem Indexed.find?_id {a : Assembler} (h : Indexed a) {name : String} {d : Declaration}
    (hd : a.declaration? name = some d) : a.declarations.find? (fun e => e.id = d.id) = some d := by
  have hn : (a.declarations.map Declaration.id).Nodup := by
    rw [h.ids]
    exact List.nodup_range
  exact find?_of_nodup_keys Declaration.id hn (List.mem_of_find?_eq_some hd)

theorem Indexed.nameOf {a : Assembler} (h : Indexed a) {name : String} {d : Declaration}
    (hd : a.declaration? name = some d) : a.nameOf d.id = name := by
  rw [Assembler.nameOf, h.find?_id hd]
  exact declaration?_name hd

/-- Different names have different numbers. -/
theorem Indexed.id_inj {a : Assembler} (h : Indexed a) {j k : String} {d e : Declaration}
    (hd : a.declaration? j = some d) (he : a.declaration? k = some e) (hid : d.id = e.id) : j = k := by
  rw [← h.nameOf hd, ← h.nameOf he, hid]

end Assembler

end Funclet
