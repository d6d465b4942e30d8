import Funclet.Compiler
import Funclet.Proofs.Declarations
import Funclet.Proofs.OrderedMap

/-!
# Registered functions and their declarations

* `resolve_ok`, `enroll_ok` : all that a call and a definition can do when they succeed;
* `Registry.Knows r name n id` : `name` stands for the function `id` with `n` parameters, defined or not;
* `Linked r a` : names are registered once, and what is registered is declared with the same number and parameters;
  kept by calls (`Linked.resolve`) and definitions (`Linked.enroll`);
* `Registry.reverted` : the registry after a definition has been taken back (`withdraw_eq_reverted`), which says the
  same about every name.
-/

namespace Funclet

namespace Registry

/-- `name` stands for the function `id` with `n` parameters. -/
def Knows (r : Registry) (name : String) (n : Nat) (id : FunctionId) : Prop :=
  ∃ e, r.find? name = some e ∧ e.proto.arity = n ∧ e.id = id

theorem Knows.unique {r : Registry} {name : String} {m n : Nat} {i j : FunctionId} (hi : r.Knows name m i)
    (hj : r.Knows name n j) : m = n ∧ i = j := by
  obtain ⟨e, he, rfl, rfl⟩ := hi
  obtain ⟨e', he', rfl, rfl⟩ := hj
  rw [he] at he'
  cases he'
  exact ⟨rfl, rfl⟩

theorem find?_of_confirmed {r : Registry} {name : String} {e : Entry} (h : r.confirmed.get? name = some e) :
    r.find? name = some e := by
  rw [find?, h, Option.some_or]

theorem find?_eq_none_iff (r : Registry) (name : String) :
    r.find? name = none ↔ r.confirmed.get? name = none ∧ r.pending.get? name = none := by
  rw [find?, Option.or_eq_none_iff]

/-- What is known about the entry function once it has been seen with `n` parameters. -/
def sighted (r : Registry) (name : String) (n : Nat) : Option Nat :=
  if name = r.entry then some n else r.entryArity

theorem settleEntry_ok {r r' : Registry} {name : String} {n : Nat} {pos : Pos}
    (h : r.settleEntry name n pos = .ok r') : r' = { r with entryArity := r.sighted name n } := by
  unfold settleEntry at h
  unfold sighted
  split at h
  · rename_i hn
    rw [if_pos hn]
    split at h
    · cases h; rfl
    · rename_i expected hex
      split at h
      · rename_i heq
        cases h
        rw [← heq, ← hex]
      · cases h
  · rename_i hn
    cases h
    rw [if_neg hn]

/-- A signature that passes is new, agrees with the calls there are, and has the parameters of its operator. -/
theorem enroll_ok {r r' : Registry} {p : Prototype} (h : r.enroll p = .ok r') :
    (∀ f, fixity? p.kind = some f → f.arity = p.arity) ∧ r.confirmed.get? p.name = none ∧
      (∀ e, r.pending.get? p.name = some e → e.proto.arity = p.arity) ∧
      r' = { r with entryArity := r.sighted p.name p.arity } := by
  unfold enroll at h
  split at h
  · cases h
  · rename_i hfix
    split at h
    · cases h
    · rename_i hconf
      split at h
      · cases h
      · rename_i hpend
        refine ⟨fun f hf => ?_, ?_, fun e he => ?_, settleEntry_ok h⟩
        · simpa [hf] using hfix
        · simpa [OrderedMap.contains] using hconf
        · simpa [he] using hpend

end Registry

/-! ## Calls and definitions -/

theorem Session.diagnostics_record (s : Session) (events : List Event) :
    (s.record events).diagnostics = s.diagnostics ++ events.filterMap Event.diagnostic? :=
  List.filterMap_append

/-- Notes are no diagnostics. -/
theorem Session.diagnostics_note (s : Session) (n : Note) : (s.note n).diagnostics = s.diagnostics :=
  (s.diagnostics_record _).trans (List.append_nil _)

/-- A call finds what is registered, or else registers and declares a placeholder. -/
theorem resolve_ok {pos : Pos} {name : String} {n : Nat} {s s' : Session} {id : FunctionId}
    (h : resolve pos name n s = .ok id s') :
    (s' = s ∧ s.registry.Knows name n id) ∨
    (s.registry.find? name = none ∧ id = (s.assembler.declare name n).1 ∧
      s'.assembler = (s.assembler.declare name n).2 ∧
      s'.registry = { s.registry with
        entryArity := s.registry.sighted name n
        pending := s.registry.pending.insert name ⟨.placeholder pos name n, id⟩ } ∧
      s'.strict = s.strict ∧ s'.operators = s.operators ∧ s'.scopes = s.scopes ∧ s'.diagnostics = s.diagnostics) := by
  unfold resolve at h
  split at h
  · rename_i e he
    split at h
    · rename_i harity
      cases h
      exact Or.inl ⟨rfl, e, he, harity, rfl⟩
    · cases h
  · rename_i hnone
    split at h
    · cases h
    · rename_i r hr
      obtain rfl := Registry.settleEntry_ok hr
      cases h
      exact Or.inr ⟨hnone, rfl, rfl, rfl, rfl, rfl, rfl, Session.diagnostics_note _ _⟩

/-- A call does not touch scopes or code. -/
theorem resolve_code {pos : Pos} {name : String} {n : Nat} {s s' : Session} {id : FunctionId}
    (h : resolve pos name n s = .ok id s') :
    s'.scopes = s.scopes ∧ s'.assembler.drafts = s.assembler.drafts ∧ s'.assembler.cursor = s.assembler.cursor := by
  rcases resolve_ok h with ⟨rfl, -⟩ | ⟨-, -, ha, -, -, -, hsc, -⟩
  · exact ⟨rfl, rfl, rfl⟩
  · rw [ha]
    exact ⟨hsc, rfl, rfl⟩

/-- A definition is declared and confirmed, and what was pending under its name is set aside. -/
theorem enroll_ok {p : Prototype} {s s' : Session} {o : Registry.Opening} (h : enroll p s = .ok o s') :
    (∃ r, s.registry.enroll p = .ok r) ∧
    o = ⟨(s.assembler.declare p.name p.arity).1, p.name, s.registry.pending.get? p.name,
      (s.registry.pending.erase p.name).size, s.registry.sighted p.name p.arity⟩ ∧
    s'.assembler = (s.assembler.declare p.name p.arity).2 ∧
    s'.registry = { s.registry with
      entryArity := s.registry.sighted p.name p.arity
      pending := s.registry.pending.erase p.name
      confirmed := s.registry.confirmed.insert p.name ⟨p, o.id⟩ } ∧
    s'.strict = s.strict ∧ s'.operators = s.operators ∧ s'.scopes = s.scopes ∧ s'.diagnostics = s.diagnostics := by
  unfold enroll at h
  split at h
  · cases h
  · rename_i r hr
    obtain ⟨-, -, -, rfl⟩ := Registry.enroll_ok hr
    cases h
    have hnote : ∀ (b : Bool) (n : Note), (if b then [Event.note n] else []).filterMap Event.diagnostic? = [] := by
      intro b n
      cases b <;> rfl
    refine ⟨⟨_, hr⟩, rfl, rfl, rfl, rfl, rfl, rfl, ?_⟩
    exact (Session.diagnostics_record _ _).trans ((congrArg _ (hnote _ _)).trans (List.append_nil _))

theorem enroll_error {p : Prototype} {s s' : Session} {d : Diagnostic} (h : enroll p s = .error d s') :
    s' = s := by
  unfold enroll at h
  split at h
  · cases h; rfl
  · cases h

/-! ## Registry and declarations -/

/-- Names are registered once, and what is registered is declared with the same number and parameters. -/
structure Linked (r : Registry) (a : Assembler) : Prop where
  indexed : a.Indexed
  confirmed : r.confirmed.Distinct
  pending : r.pending.Distinct
  apart : ∀ name e, r.confirmed.get? name = some e → r.pending.get? name = none
  declared : ∀ name e, r.find? name = some e → a.declaration? name = some ⟨e.id, name, e.proto.arity⟩
  named : ∀ name e, r.find? name = some e → e.proto.name = name

theorem linked_empty (entry : String) : Linked (.empty entry) .empty where
  indexed := Assembler.indexed_empty
  confirmed := OrderedMap.distinct_empty
  pending := OrderedMap.distinct_empty
  apart := fun _ _ h => by cases h
  declared := fun _ _ h => by cases h
  named := fun _ _ h => by cases h

namespace Linked

variable {r : Registry} {a : Assembler}

theorem declared_of_knows (h : Linked r a) {name : String} {n : Nat} {id : FunctionId} (hk : r.Knows name n id) :
    a.declaration? name = some ⟨id, name, n⟩ := by
  obtain ⟨e, he, rfl, rfl⟩ := hk
  exact h.declared name e he

/-- A function has one name and one number of parameters. -/
theorem knows_unique (h : Linked r a) {j k : String} {m n : Nat} {id : FunctionId} (hj : r.Knows j m id)
    (hk : r.Knows k n id) : j = k ∧ m = n := by
  have h1 := h.declared_of_knows hj
  have h2 := h.declared_of_knows hk
  obtain rfl := h.indexed.id_inj h1 h2 rfl
  rw [h1] at h2
  exact ⟨rfl, by injection h2 with h2; injection h2⟩

theorem find?_of_pending (h : Linked r a) {name : String} {e : Registry.Entry} (he : r.pending.get? name = some e) :
    r.find? name = some e := by
  cases hc : r.confirmed.get? name with
  | none => rw [Registry.find?, hc, he, Option.none_or]
  | some c => rw [h.apart name c hc] at he; cases he

/-- Of the code under construction only the declarations matter. -/
theorem of_declarations {a' : Assembler} (h : Linked r a) (ha : a'.declarations = a.declarations) : Linked r a' := by
  have hd : ∀ name, a'.declaration? name = a.declaration? name := fun name => by
    rw [Assembler.declaration?, ha, Assembler.declaration?]
  exact ⟨⟨by rw [ha]; exact h.indexed.ids, by rw [ha]; exact h.indexed.names⟩, h.confirmed, h.pending, h.apart,
    fun name e he => (hd name).trans (h.declared name e he), h.named⟩

end Linked

theorem find?_expect (r : Registry) (name : String) (e : Registry.Entry) (k : Option Nat)
    (hnone : r.find? name = none) (j : String) :
    Registry.find? { r with entryArity := k, pending := r.pending.insert name e } j =
      if name = j then some e else r.find? j := by
  simp only [Registry.find?, OrderedMap.get?_insert]
  split
  · rename_i hj
    rw [← hj, ((Registry.find?_eq_none_iff r name).mp hnone).1, Option.none_or]
  · rfl

/-- A new placeholder is declared under its own name only. -/
theorem Linked.expect {r : Registry} {a : Assembler} (h : Linked r a) (pos : Pos) (name : String) (n : Nat)
    (k : Option Nat) (hnone : r.find? name = none) :
    Linked { r with
      entryArity := k
      pending := r.pending.insert name ⟨.placeholder pos name n, (a.declare name n).1⟩ } (a.declare name n).2 where
  indexed := h.indexed.declare name n
  confirmed := h.confirmed
  pending := h.pending.insert name _
  apart := by
    intro j e he
    rw [OrderedMap.get?_insert, if_neg]
    · exact h.apart j e he
    · rintro rfl
      rw [((Registry.find?_eq_none_iff r name).mp hnone).1] at he
      cases he
  declared := by
    intro j e he
    rw [find?_expect r name _ k hnone] at he
    rw [Assembler.declaration?_declare]
    split at he
    · rename_i hj
      cases he
      rw [if_pos hj, hj, Prototype.arity_placeholder]
    · rename_i hj
      rw [if_neg hj]
      exact h.declared j e he
  named := by
    intro j e he
    rw [find?_expect r name _ k hnone] at he
    split at he
    · rename_i hj
      cases he
      exact hj
    · exact h.named j e he

theorem Linked.resolve {pos : Pos} {name : String} {n : Nat} {s s' : Session} {id : FunctionId}
    (h : Linked s.registry s.assembler) (hr : resolve pos name n s = .ok id s') :
    Linked s'.registry s'.assembler := by
  rcases resolve_ok hr with ⟨rfl, -⟩ | ⟨hnone, rfl, ha, hreg, -⟩
  · exact h
  · rw [hreg, ha]
    exact h.expect pos name n _ hnone

/-- What is registered stays so when something is called. -/
theorem find?_of_resolve {pos : Pos} {name : String} {n : Nat} {s s' : Session} {id : FunctionId}
    (hr : resolve pos name n s = .ok id s') {j : String} {e : Registry.Entry} (he : s.registry.find? j = some e) :
    s'.registry.find? j = some e := by
  rcases resolve_ok hr with ⟨rfl, -⟩ | ⟨hnone, -, -, hreg, -⟩
  · exact he
  · rw [hreg, find?_expect _ _ _ _ hnone, if_neg]
    · exact he
    · rintro rfl
      rw [hnone] at he
      cases he

/-- The callee of a call is registered with the number of its arguments. -/
theorem knows_of_resolve {pos : Pos} {name : String} {n : Nat} {s s' : Session} {id : FunctionId}
    (hr : resolve pos name n s = .ok id s') : s'.registry.Knows name n id := by
  rcases resolve_ok hr with ⟨rfl, hk⟩ | ⟨hnone, -, -, hreg, -⟩
  · exact hk
  · refine ⟨⟨.placeholder pos name n, id⟩, ?_, Prototype.arity_placeholder _ _ _, rfl⟩
    rw [hreg, find?_expect _ _ _ _ hnone, if_pos rfl]

/-! ## Definitions -/

theorem find?_confirm (r : Registry) (p : Prototype) (id : FunctionId) (k : Option Nat) (j : String) :
    Registry.find? { r with
      entryArity := k
      pending := r.pending.erase p.name
      confirmed := r.confirmed.insert p.name ⟨p, id⟩ } j =
      if p.name = j then some ⟨p, id⟩ else r.find? j := by
  simp only [Registry.find?, OrderedMap.get?_insert, OrderedMap.get?_erase]
  split <;> rfl

theorem knows_of_enroll {p : Prototype} {s s' : Session} {o : Registry.Opening} (h : enroll p s = .ok o s') :
    s'.registry.Knows p.name p.arity o.id := by
  obtain ⟨-, -, -, hreg, -⟩ := enroll_ok h
  refine ⟨⟨p, o.id⟩, ?_, rfl, rfl⟩
  rw [hreg, find?_confirm, if_pos rfl]

/-- A definition has the number that earlier calls of its name have used. -/
theorem Linked.knows_confirm {r r' : Registry} {a : Assembler} (h : Linked r a) {p : Prototype}
    (hp : r.enroll p = .ok r') {n : Nat} {id : FunctionId} (hk : r.Knows p.name n id) :
    n = p.arity ∧ id = (a.declare p.name p.arity).1 := by
  obtain ⟨-, hconf, hpend, -⟩ := Registry.enroll_ok hp
  have hdecl := h.declared_of_knows hk
  obtain ⟨e, he, rfl, rfl⟩ := hk
  rw [Registry.find?, hconf, Option.none_or] at he
  exact ⟨hpend e he, (Assembler.declare_fst_of_declaration? hdecl _).symm⟩

theorem Linked.enroll {p : Prototype} {s s' : Session} {o : Registry.Opening}
    (h : Linked s.registry s.assembler) (he : enroll p s = .ok o s') : Linked s'.registry s'.assembler := by
  obtain ⟨⟨r, hr⟩, ho, ha, hreg, -⟩ := enroll_ok he
  have hid : o.id = (s.assembler.declare p.name p.arity).1 := by rw [ho]
  rw [hreg, ha]
  constructor
  · exact h.indexed.declare _ _
  · exact h.confirmed.insert _ _
  · exact h.pending.erase _
  · intro j e hj
    rw [OrderedMap.get?_insert] at hj
    rw [OrderedMap.get?_erase]
    split at hj
    · rename_i hn
      rw [if_pos hn]
    · rename_i hn
      rw [if_neg hn]
      exact h.apart j e hj
  · intro j e hj
    rw [find?_confirm] at hj
    rw [Assembler.declaration?_declare]
    split at hj
    · rename_i hn
      cases hj
      subst hn
      rw [if_pos rfl, hid]
    · rename_i hn
      rw [if_neg hn]
      exact h.declared j e hj
  · intro j e hj
    rw [find?_confirm] at hj
    split at hj
    · rename_i hn
      cases hj
      exact hn
    · exact h.named j e hj

/-- What calls rely on outlasts a definition. -/
theorem Linked.knows_enroll {p : Prototype} {s s' : Session} {o : Registry.Opening}
    (h : Linked s.registry s.assembler) (he : Funclet.enroll p s = .ok o s') {name : String} {n : Nat} {id : FunctionId}
    (hk : s.registry.Knows name n id) : s'.registry.Knows name n id := by
  obtain ⟨⟨r, hr⟩, ho, ha, hreg, -⟩ := enroll_ok he
  by_cases hn : p.name = name
  · subst hn
    obtain ⟨rfl, rfl⟩ := h.knows_confirm hr hk
    refine ⟨⟨p, o.id⟩, ?_, rfl, by rw [ho]⟩
    rw [hreg, find?_confirm, if_pos rfl]
  · obtain ⟨e, hf, hn', hi⟩ := hk
    refine ⟨e, ?_, hn', hi⟩
    rw [hreg, find?_confirm, if_neg hn]
    exact hf

/-! ## Definitions that are taken back -/

/-- The registry after a definition has been taken back: what its signature says about the entry function stays, and
a placeholder of its name has moved to the end. -/
def Registry.reverted (r : Registry) (p : Prototype) : Registry :=
  { r with
    entryArity := r.sighted p.name p.arity
    pending := match r.pending.get? p.name with
      | some e => (r.pending.erase p.name).insert p.name e
      | none => r.pending }

/-- A definition can be taken back if since it began only placeholders have been added. -/
theorem withdraw_eq_reverted {r r' : Registry} {p : Prototype} {o : Registry.Opening}
    {es : List (String × Registry.Entry)} (hname : o.name = p.name) (hdisp : o.displaced = r.pending.get? p.name)
    (hmark : o.mark = (r.pending.erase p.name).size) (harity : o.entryArity = r.sighted p.name p.arity)
    (hnew : r.confirmed.get? p.name = none) (hconf : r'.confirmed = r.confirmed.insert p.name ⟨p, o.id⟩)
    (hpend : r'.pending.entries = (r.pending.erase p.name).entries ++ es) (hentry : r'.entry = r.entry) :
    r'.withdraw o = r.reverted p := by
  have htake : r'.pending.take o.mark = r.pending.erase p.name := by
    rw [hmark]
    exact OrderedMap.take_of_entries hpend
  simp only [Registry.withdraw, Registry.reverted, htake, hname, hconf, hdisp, harity, hentry,
    OrderedMap.erase_insert_of_get? _ _ _ hnew]
  cases hp : r.pending.get? p.name with
  | none => rw [OrderedMap.erase_of_get? _ _ hp]
  | some e => rfl

/-- A definition that has begun can be taken back as long as only placeholders are added. -/
theorem withdraw_enrolled {r : Registry} {p : Prototype} {o : Registry.Opening} {s s₁ : Session}
    (he : enroll p s = .ok o s₁) (hconf : r.confirmed = s₁.registry.confirmed)
    (hpend : ∃ es, r.pending.entries = s₁.registry.pending.entries ++ es) (hentry : r.entry = s₁.registry.entry) :
    r.withdraw o = s.registry.reverted p := by
  obtain ⟨⟨r', hr⟩, ho, -, hreg, -⟩ := enroll_ok he
  obtain ⟨-, hnew, -, -⟩ := Registry.enroll_ok hr
  obtain ⟨es, hes⟩ := hpend
  rw [hreg] at hconf hes hentry
  exact withdraw_eq_reverted (by rw [ho]) (by rw [ho]) (by rw [ho]) (by rw [ho]) hnew hconf hes hentry

theorem Registry.pending_reverted (r : Registry) (p : Prototype) (name : String) :
    (r.reverted p).pending.get? name = r.pending.get? name := by
  unfold reverted
  cases h : r.pending.get? p.name with
  | none => rfl
  | some e =>
    simp only [OrderedMap.get?_insert, OrderedMap.get?_erase]
    split
    · rename_i hn
      rw [← hn, h]
    · rfl

theorem Registry.find?_reverted (r : Registry) (p : Prototype) (name : String) :
    (r.reverted p).find? name = r.find? name := by
  rw [find?, pending_reverted]
  rfl

theorem Registry.reverted_perm {r : Registry} (h : r.pending.Distinct) (p : Prototype) :
    (r.reverted p).pending.entries.Perm r.pending.entries := by
  unfold reverted
  cases hp : r.pending.get? p.name with
  | none => exact .refl _
  | some e => exact OrderedMap.insert_erase_perm h hp

theorem Linked.reverted {r : Registry} {a a' : Assembler} (h : Linked r a) (p : Prototype) (hi : a'.Indexed)
    (hd : ∀ name e, r.find? name = some e → a'.declaration? name = some ⟨e.id, name, e.proto.arity⟩) :
    Linked (r.reverted p) a' where
  indexed := hi
  confirmed := h.confirmed
  pending := ((Registry.reverted_perm h.pending p).map Prod.fst).nodup_iff.mpr h.pending
  apart := fun name e he => by
    rw [Registry.pending_reverted]
    exact h.apart name e he
  declared := fun name e he => hd name e (by rwa [Registry.find?_reverted] at he)
  named := fun name e he => h.named name e (by rwa [Registry.find?_reverted] at he)

end Funclet
