import Funclet.Proofs.Lowering.Frame

/-!
# What becomes of a function

* `lowerFunction_ok`, `lowerFunction_error` : the two outcomes of lowering a function, as effects between the
  definition that begins and the body that is finished or the definition that is taken back;
* `Operators.undo_define` : taking back the operator that a function defines leaves the table it found;
* `Assembler.Idle` : no code is under construction, as it is between functions;
* `lowerFunction_idle`, `lowerFunction_linked` : both outcomes keep sessions orderly;
* `Reverted f s s'` : all that a failed function `f` can have changed (`lowerFunction_reverted`).
-/

namespace Funclet

/-- Taking back the operator that was just defined leaves the table as it was. -/
theorem Operators.undo_define (t : Operators) (k : FunctionKind) :
    (match (t.define k).2 with
      | some u => (t.define k).1.undo u
      | none => (t.define k).1) = t := by
  obtain ⟨binary, unary⟩ := t
  cases k with
  | plain => rfl
  | unary op =>
    by_cases h : unary.contains op
    · simp only [define, if_pos h, undo]
    · simp only [define, if_neg h, undo]
      congr 1
      rw [List.filter_cons_of_neg (by simp), List.filter_eq_self]
      intro c hc
      simp only [decide_eq_true_eq]
      rintro rfl
      exact h (List.contains_iff_mem.mpr hc)
  | binary op precedence =>
    cases h : binary.get? op with
    | none => simp only [define, h, undo, OrderedMap.erase_insert_of_get? _ _ _ h]
    | some q => simp only [define, h, undo, OrderedMap.insert_insert, OrderedMap.insert_of_get? _ _ _ h]

structure Assembler.Idle (a : Assembler) : Prop where
  drafts : a.drafts = .empty
  cursor : a.cursor = none

namespace Lowering

variable {f : Function} {s s' : Session}

/-- The session in which the body of a function is lowered, where its operator is in force. -/
def opened {E : Type} (f : Function) (s : Session E) : Session E :=
  s.setOperators (s.operators.define f.proto.kind).1 (Note.ofKind f.proto.kind)

theorem diagnostics_opened (f : Function) (s : Session) : (opened f s).diagnostics = s.diagnostics := by
  have hnotes : ∀ ns : List Note, (ns.map Event.note).filterMap Event.diagnostic? = [] := by
    intro ns
    rw [List.filterMap_map, List.filterMap_eq_nil_iff]
    exact fun _ _ => rfl
  exact (Session.diagnostics_record _ _).trans ((congrArg _ (hnotes _)).trans (List.append_nil _))

theorem finish_ok {pos : Pos} {id : FunctionId} {body : Body} (h : finish pos id s = .ok body s') :
    s.assembler.finished id = .ok body ∧ s' = { s with assembler := s.assembler.discard id } := by
  cases hb : s.assembler.finished id with
  | ok b =>
    simp only [finish, Assembler.emitter_finish, Assembler.finish, hb] at h
    cases h
    exact ⟨rfl, rfl⟩
  | error e =>
    simp only [finish, Assembler.emitter_finish, Assembler.finish, hb] at h
    cases h

theorem finish_error {pos : Pos} {id : FunctionId} {d : Diagnostic} (h : finish pos id s = .error d s') :
    s' = { s with assembler := s.assembler.discard id } := by
  cases hb : s.assembler.finished id with
  | ok b =>
    simp only [finish, Assembler.emitter_finish, Assembler.finish, hb] at h
    cases h
  | error e =>
    simp only [finish, Assembler.emitter_finish, Assembler.finish, hb] at h
    cases h
    rfl

/-- A finished body is the code that was under construction, with the parameters that were declared. -/
theorem finished_ok {a : Assembler} {id : FunctionId} {D body : Body} (hD : a.drafts.get? id = some D)
    (h : a.finished id = .ok body) :
    ∃ n, body = { D with params := n } ∧ ∀ d, a.declaration? D.name = some d → n = d.params := by
  unfold Assembler.finished at h
  rw [hD] at h
  dsimp only at h
  split at h
  · cases h
  · split at h
    · rename_i d hd
      cases h
      exact ⟨d.params, rfl, fun d' hd' => by rw [Option.some.inj (hd.symm.trans hd')]⟩
    · rename_i hnone
      cases h
      refine ⟨D.params, rfl, fun d hd => ?_⟩
      rw [hnone] at hd
      cases hd

theorem discard_discard (a : Assembler) (id : FunctionId) : (a.discard id).discard id = a.discard id := by
  simp only [Assembler.discard, OrderedMap.erase_erase]
  cases a.cursor with
  | none => rfl
  | some c => by_cases h : c.function = id <;> simp [Option.filter, h]

/-- Once a function is enrolled, its outcome is that of its body. -/
theorem lowerFunction_eq {E : Type} [Emitter E] {s : Session E} {o : Registry.Opening} {s₁ : Session E}
    (he : enroll f.proto { s with scopes := .empty } = .ok o s₁) :
    lowerFunction f s = match lowerBody f o.id (opened f s₁) with
      | .ok body t => .ok body (t.note (.functionLowered f.proto.name body.regions.size))
      | .error d t =>
        let t := match (s₁.operators.define f.proto.kind).2 with
          | some u => (t.withdraw o).setOperators (t.operators.undo u) [.operatorRestored u]
          | none => t.withdraw o
        .error d ({ t with scopes := .empty }.note (.functionDiscarded f.proto.name d.cause)) := by
  unfold lowerFunction opened
  rw [he]
  dsimp only
  cases lowerBody f o.id (s₁.setOperators (s₁.operators.define f.proto.kind).1 (Note.ofKind f.proto.kind)) <;> rfl

/-- A function that is lowered has been enrolled, its code has been written, and its body is finished. -/
theorem lowerFunction_ok {body : Body} (h : lowerFunction f s = .ok body s') :
    ∃ o s₁ t, enroll f.proto { s with scopes := .empty } = .ok o s₁ ∧
      Effects o.id (begun o.id (opened f s₁)) t ∧
      lowerCode f ((opened f s₁).assembler.addRegion o.id "entry").1 (begun o.id (opened f s₁)) = .ok () t ∧
      t.assembler.finished o.id = .ok body ∧
      s' = Session.note { t with assembler := t.assembler.discard o.id }
        (.functionLowered f.proto.name body.regions.size) := by
  cases he : enroll f.proto { s with scopes := .empty } with
  | error d s₁ =>
    unfold lowerFunction at h
    rw [he] at h
    cases h
  | ok o s₁ =>
    obtain ⟨t, ht, hb⟩ := lowerBody_effects f o.id (opened f s₁)
    rw [lowerFunction_eq he] at h
    rcases hb with ⟨d, hb⟩ | ⟨hcode, hb⟩
    · rw [hb] at h
      cases h
    · rw [hb] at h
      cases hfin : finish f.proto.pos o.id t with
      | error d u =>
        rw [hfin] at h
        cases h
      | ok b u =>
        rw [hfin] at h
        cases h
        obtain ⟨hbody, rfl⟩ := finish_ok hfin
        exact ⟨o, s₁, t, rfl, ht, hcode, hbody, rfl⟩

/-- A function that fails is not enrolled, or it is taken back after the effects that its code has had. -/
theorem lowerFunction_error {d : Diagnostic} (h : lowerFunction f s = .error d s') :
    s' = { s with scopes := .empty } ∨
    ∃ o s₁ t, enroll f.proto { s with scopes := .empty } = .ok o s₁ ∧
      Effects o.id (begun o.id (opened f s₁)) t ∧
      s'.strict = t.strict ∧ s'.scopes = .empty ∧
      s'.operators = (match (s₁.operators.define f.proto.kind).2 with
        | some u => t.operators.undo u
        | none => t.operators) ∧
      s'.registry = t.registry.withdraw o ∧ s'.assembler = t.assembler.discard o.id ∧
      s'.diagnostics = t.diagnostics := by
  cases he : enroll f.proto { s with scopes := .empty } with
  | error d s₁ =>
    unfold lowerFunction at h
    rw [he] at h
    cases h
    exact Or.inl (enroll_error he)
  | ok o s₁ =>
    obtain ⟨t, ht, hb⟩ := lowerBody_effects f o.id (opened f s₁)
    rw [lowerFunction_eq he] at h
    refine Or.inr ⟨o, s₁, t, rfl, ht, ?_⟩
    have hu : ∃ e u, lowerBody f o.id (opened f s₁) = .error e u ∧ u.strict = t.strict ∧
        u.operators = t.operators ∧ u.registry = t.registry ∧
        u.assembler.discard o.id = t.assembler.discard o.id ∧ u.diagnostics = t.diagnostics := by
      rcases hb with ⟨e, hb⟩ | ⟨-, hb⟩
      · exact ⟨e, t, hb, rfl, rfl, rfl, rfl, rfl⟩
      · cases hfin : finish f.proto.pos o.id t with
        | ok b u =>
          rw [hb, hfin] at h
          cases h
        | error e u =>
          obtain rfl := finish_error hfin
          exact ⟨e, _, hb.trans hfin, rfl, rfl, rfl, discard_discard _ _, rfl⟩
    obtain ⟨e, u, hlow, hstrict, hops, hreg, hasm, hdiag⟩ := hu
    rw [hlow] at h
    cases hundo : (s₁.operators.define f.proto.kind).2 with
    | none =>
      simp only [hundo] at h
      cases h
      exact ⟨hstrict, rfl, hops, congrArg (·.withdraw o) hreg, hasm, (Session.diagnostics_note _ _).trans hdiag⟩
    | some w =>
      simp only [hundo] at h
      cases h
      refine ⟨hstrict, rfl, congrArg (·.undo w) hops, congrArg (·.withdraw o) hreg, hasm, ?_⟩
      exact (Session.diagnostics_note _ _).trans ((Session.diagnostics_record _ _).trans
        ((List.append_nil _).trans hdiag))

/-! ## Code between functions -/

/-- Once a function has been lowered or given up, nothing is under construction. -/
theorem idle_discard {o : Registry.Opening} {s₁ t : Session} (hi : s.assembler.Idle)
    (he : enroll f.proto { s with scopes := .empty } = .ok o s₁) (ht : Effects o.id (begun o.id (opened f s₁)) t) :
    (t.assembler.discard o.id).Idle := by
  obtain ⟨-, -, ha, -⟩ := enroll_ok he
  obtain ⟨⟨r, hr⟩, hd⟩ := ht.inside (begun_inside _ _)
  constructor
  · rw [begun_drafts] at hd
    change t.assembler.drafts.erase o.id = _
    rw [hd]
    change s₁.assembler.drafts.erase o.id = _
    rw [ha]
    change s.assembler.drafts.erase o.id = _
    rw [hi.drafts]
    rfl
  · simp [Assembler.discard, hr, Option.filter]

/-- What is known when a definition begins is known as long as its code is written. -/
theorem kept_opened {s₁ t : Session} {id : FunctionId} (ht : Effects id (begun id (opened f s₁)) t) :
    Kept (opened f s₁) t :=
  (begun_kept _ _).trans ht.kept

theorem lowerFunction_idle {body : Body} (hi : s.assembler.Idle) (h : lowerFunction f s = .ok body s') :
    s'.assembler.Idle := by
  obtain ⟨o, s₁, t, he, ht, -, -, rfl⟩ := lowerFunction_ok h
  exact idle_discard hi he ht

theorem lowerFunction_linked {body : Body} (hl : Linked s.registry s.assembler)
    (h : lowerFunction f s = .ok body s') : Linked s'.registry s'.assembler := by
  obtain ⟨o, s₁, t, he, ht, -, -, rfl⟩ := lowerFunction_ok h
  have h₁ : Linked s₁.registry s₁.assembler := Linked.enroll (s := { s with scopes := .empty }) hl he
  exact ((kept_opened ht).linked h₁).of_declarations rfl

/-- A function that is lowered leaves its operator in force, and nothing is wrong with it. -/
theorem lowerFunction_settings {body : Body} (h : lowerFunction f s = .ok body s') :
    s'.strict = s.strict ∧ s'.operators = (s.operators.define f.proto.kind).1 ∧
      s'.registry.entry = s.registry.entry ∧ s'.diagnostics = s.diagnostics := by
  obtain ⟨o, s₁, t, he, ht, -, -, rfl⟩ := lowerFunction_ok h
  obtain ⟨-, -, -, hreg, hstrict, hops, -, hdiag⟩ := enroll_ok he
  have hkept := kept_opened ht
  refine ⟨hkept.strict.trans hstrict, ?_, ?_, ?_⟩
  · change t.operators = _
    rw [hkept.operators]
    change (s₁.operators.define f.proto.kind).1 = _
    rw [hops]
  · change t.registry.entry = _
    rw [hkept.entry]
    change s₁.registry.entry = _
    rw [hreg]
  · exact (Session.diagnostics_note _ _).trans (hkept.diagnostics.trans ((diagnostics_opened _ _).trans hdiag))

/-! ## Functions that fail -/

/-- When a definition is taken back, what was registered before it is declared as it was. -/
theorem linked_withdrawn {p : Prototype} {o : Registry.Opening} {s₁ u t : Session}
    (hl : Linked s.registry s.assembler) (he : enroll p s = .ok o s₁) (hr : u.registry = s₁.registry)
    (ha : u.assembler.declarations = s₁.assembler.declarations) (hkept : Kept u t) :
    Linked (s.registry.reverted p) (t.assembler.discard o.id) := by
  have hu : Linked u.registry u.assembler := by
    rw [hr]
    exact (hl.enroll he).of_declarations ha
  have ht := hkept.linked hu
  refine hl.reverted p ⟨ht.indexed.ids, ht.indexed.names⟩ fun name e hname => ?_
  have hknown : u.registry.Knows name e.proto.arity e.id := by
    rw [hr]
    exact hl.knows_enroll he ⟨e, hname, rfl, rfl⟩
  exact ht.declared_of_knows (hkept.knows hknown)

/-- All that a failed function can have changed. -/
structure Reverted (f : Function) (s s' : Session) : Prop where
  strict : s'.strict = s.strict
  operators : s'.operators = s.operators
  diagnostics : s'.diagnostics = s.diagnostics
  scopes : s'.scopes = .empty
  registry : s'.registry = s.registry ∨
    (∃ r, s.registry.enroll f.proto = .ok r) ∧ s'.registry = s.registry.reverted f.proto
  idle : s'.assembler.Idle
  signatures : ∃ ds, s'.assembler.declarations.map Assembler.signature =
    s.assembler.declarations.map Assembler.signature ++ ds
  linked : Linked s'.registry s'.assembler

theorem lowerFunction_reverted {d : Diagnostic} (hl : Linked s.registry s.assembler) (hi : s.assembler.Idle)
    (h : lowerFunction f s = .error d s') : Reverted f s s' := by
  rcases lowerFunction_error h with rfl | ⟨o, s₁, t, he, ht, hstrict, hscopes, hops, hreg, hasm, hdiag⟩
  · exact ⟨rfl, rfl, rfl, rfl, Or.inl rfl, hi, ⟨[], (List.append_nil _).symm⟩, hl⟩
  · have hkept := kept_opened ht
    obtain ⟨⟨r, hr⟩, -, ha, -, hstrict₁, hops₁, -, hdiag₁⟩ := enroll_ok he
    have hback : s'.registry = s.registry.reverted f.proto := by
      rw [hreg]
      exact withdraw_enrolled (s := { s with scopes := .empty }) he hkept.confirmed hkept.pending hkept.entry
    refine ⟨?_, ?_, ?_, hscopes, Or.inr ⟨⟨r, hr⟩, hback⟩, ?_, ?_, ?_⟩
    · rw [hstrict, hkept.strict]
      exact hstrict₁
    · rw [hops, hkept.operators]
      change (match (s₁.operators.define f.proto.kind).2 with
        | some u => (s₁.operators.define f.proto.kind).1.undo u
        | none => (s₁.operators.define f.proto.kind).1) = _
      rw [Operators.undo_define, hops₁]
    · rw [hdiag, hkept.diagnostics, diagnostics_opened]
      exact hdiag₁
    · rw [hasm]
      exact idle_discard hi he ht
    · obtain ⟨ds, hds⟩ := hkept.signatures
      have hds' : s'.assembler.declarations.map Assembler.signature =
          (s.assembler.declare f.proto.name f.proto.arity).2.declarations.map Assembler.signature ++ ds := by
        rw [hasm]
        change t.assembler.declarations.map _ = _
        rw [hds]
        change s₁.assembler.declarations.map _ ++ ds = _
        rw [ha]
      rw [Assembler.signatures_declare, List.append_assoc] at hds'
      exact ⟨_, hds'⟩
    · rw [hback, hasm]
      exact linked_withdrawn (s := { s with scopes := .empty }) (u := opened f s₁) hl he rfl rfl hkept

namespace Reverted

theorem confirmed (h : Reverted f s s') : s'.registry.confirmed = s.registry.confirmed := by
  rcases h.registry with hr | ⟨-, hr⟩ <;> rw [hr]
  rfl

theorem entry (h : Reverted f s s') : s'.registry.entry = s.registry.entry := by
  rcases h.registry with hr | ⟨-, hr⟩ <;> rw [hr]
  rfl

theorem pending (h : Reverted f s s') (name : String) :
    s'.registry.pending.get? name = s.registry.pending.get? name := by
  rcases h.registry with hr | ⟨-, hr⟩ <;> rw [hr]
  exact Registry.pending_reverted _ _ _

theorem find? (h : Reverted f s s') (name : String) : s'.registry.find? name = s.registry.find? name := by
  rw [Registry.find?, Registry.find?, h.confirmed, h.pending]

theorem knows (h : Reverted f s s') (name : String) (n : Nat) (g : FunctionId) :
    s'.registry.Knows name n g ↔ s.registry.Knows name n g := by
  rw [Registry.Knows, Registry.Knows, h.find?]

end Reverted

end Lowering

end Funclet
