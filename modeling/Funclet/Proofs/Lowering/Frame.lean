import Funclet.Proofs.Lowering.Calls

/-!
# What lowering leaves alone

* `Kept s s'` : from `s` to `s'` nothing that is known has been lost: operators and defined functions are the same,
  and placeholders and declarations have only been added (`Effects.kept`);
* `Inside id a` : the insertion point of `a` is in the function `id`;
* `Effects.inside` : from there on, no other function's code changes;
* `lowerBody_effects` : the body of a function is lowered by such changes, and finished behind them.
-/

namespace Funclet.Lowering

/-- From `s` to `s'` nothing that is known has been lost. -/
structure Kept (s s' : Session) : Prop where
  strict : s'.strict = s.strict
  operators : s'.operators = s.operators
  diagnostics : s'.diagnostics = s.diagnostics
  entry : s'.registry.entry = s.registry.entry
  confirmed : s'.registry.confirmed = s.registry.confirmed
  pending : ∃ es, s'.registry.pending.entries = s.registry.pending.entries ++ es
  known : ∀ name e, s.registry.find? name = some e → s'.registry.find? name = some e
  signatures : ∃ ds, s'.assembler.declarations.map Assembler.signature =
    s.assembler.declarations.map Assembler.signature ++ ds
  linked : Linked s.registry s.assembler → Linked s'.registry s'.assembler

theorem Kept.refl (s : Session) : Kept s s where
  strict := rfl
  operators := rfl
  diagnostics := rfl
  entry := rfl
  confirmed := rfl
  pending := ⟨[], (List.append_nil _).symm⟩
  known := fun _ _ h => h
  signatures := ⟨[], (List.append_nil _).symm⟩
  linked := fun h => h

theorem Kept.trans {s t u : Session} (h₁ : Kept s t) (h₂ : Kept t u) : Kept s u where
  strict := h₂.strict.trans h₁.strict
  operators := h₂.operators.trans h₁.operators
  diagnostics := h₂.diagnostics.trans h₁.diagnostics
  entry := h₂.entry.trans h₁.entry
  confirmed := h₂.confirmed.trans h₁.confirmed
  pending := by
    obtain ⟨es, hes⟩ := h₁.pending
    obtain ⟨fs, hfs⟩ := h₂.pending
    exact ⟨es ++ fs, by rw [hfs, hes, List.append_assoc]⟩
  known := fun name e h => h₂.known name e (h₁.known name e h)
  signatures := by
    obtain ⟨ds, hds⟩ := h₁.signatures
    obtain ⟨es, hes⟩ := h₂.signatures
    exact ⟨ds ++ es, by rw [hes, hds, List.append_assoc]⟩
  linked := fun h => h₂.linked (h₁.linked h)

theorem Kept.knows {s s' : Session} (h : Kept s s') {name : String} {n : Nat} {id : FunctionId}
    (hk : s.registry.Knows name n id) : s'.registry.Knows name n id := by
  obtain ⟨e, he, hn, hid⟩ := hk
  exact ⟨e, h.known name e he, hn, hid⟩

/-- A change of code alone. -/
theorem Kept.of_code {s : Session} {a : Assembler} (h : a.declarations = s.assembler.declarations) :
    Kept s { s with assembler := a } where
  strict := rfl
  operators := rfl
  diagnostics := rfl
  entry := rfl
  confirmed := rfl
  pending := ⟨[], (List.append_nil _).symm⟩
  known := fun _ _ h => h
  signatures := ⟨[], by rw [h, List.append_nil]⟩
  linked := fun hl => hl.of_declarations h

theorem Kept.resolve {pos : Pos} {name : String} {n : Nat} {s s' : Session} {id : FunctionId}
    (h : Funclet.resolve pos name n s = .ok id s') : Kept s s' := by
  rcases resolve_ok h with ⟨rfl, -⟩ | ⟨hnone, -, ha, hreg, hs, ho, -, hd⟩
  · exact .refl _
  · refine ⟨hs, ho, hd, by rw [hreg], by rw [hreg], ?_, fun j e he => find?_of_resolve h he, ?_, fun hl => hl.resolve h⟩
    · rw [hreg]
      exact ⟨_, OrderedMap.entries_insert _ _ _ ((Registry.find?_eq_none_iff _ _).mp hnone).2⟩
    · rw [ha]
      exact ⟨_, Assembler.signatures_declare _ _ _⟩

theorem Effect.kept {id : FunctionId} {s s' : Session} (h : Effect id s s') : Kept s s' := by
  cases h with
  | emit define => exact .of_code (declarations_emit _ _)
  | append i => exact .of_code (declarations_append _ _)
  | close t => exact .of_code (declarations_close _ _)
  | addRegion label => exact .of_code rfl
  | moveTo r => exact .of_code rfl
  | reserve r name => exact .of_code rfl
  | rescope f =>
    exact ⟨rfl, rfl, rfl, rfl, rfl, ⟨[], (List.append_nil _).symm⟩, fun _ _ h => h, ⟨[], (List.append_nil _).symm⟩,
      fun h => h⟩
  | resolve h => exact .resolve h

theorem Effects.kept {id : FunctionId} {s s' : Session} (h : Effects id s s') : Kept s s' := by
  induction h with
  | refl => exact .refl s
  | tail _ hstep ih => exact ih.trans hstep.kept

/-! ## The code of one function -/

def Inside (id : FunctionId) (a : Assembler) : Prop := ∃ r, a.cursor = some ⟨id, r⟩

theorem inside_modifyRegion {id : FunctionId} {a : Assembler} (h : Inside id a) (f : Region → Region) :
    Inside id (a.modifyRegion f) ∧ (a.modifyRegion f).drafts.erase id = a.drafts.erase id := by
  obtain ⟨r, hr⟩ := h
  simp only [Assembler.modifyRegion, hr]
  split
  · exact ⟨⟨r, hr⟩, rfl⟩
  · exact ⟨⟨r, hr⟩, OrderedMap.erase_insert _ _ _⟩

theorem inside_freshValue {id : FunctionId} {a : Assembler} (h : Inside id a) :
    Inside id a.freshValue.2 ∧ a.freshValue.2.drafts.erase id = a.drafts.erase id := by
  obtain ⟨r, hr⟩ := h
  simp only [Assembler.freshValue, hr]
  exact ⟨⟨r, hr⟩, OrderedMap.erase_insert _ _ _⟩

/-- While the insertion point is in a function, it stays there, and no other function's code changes. -/
theorem Effect.inside {id : FunctionId} {s s' : Session} (h : Effect id s s') (hi : Inside id s.assembler) :
    Inside id s'.assembler ∧ s'.assembler.drafts.erase id = s.assembler.drafts.erase id := by
  cases h with
  | emit define =>
    obtain ⟨h₁, h₂⟩ := inside_freshValue hi
    obtain ⟨h₃, h₄⟩ := inside_modifyRegion h₁ fun x =>
      { x with insts := x.insts.push (define s.assembler.freshValue.1) }
    exact ⟨h₃, h₄.trans h₂⟩
  | append i => exact inside_modifyRegion hi _
  | close t => exact inside_modifyRegion hi _
  | addRegion label => exact ⟨hi, OrderedMap.erase_insert _ _ _⟩
  | moveTo r => exact ⟨⟨r, rfl⟩, rfl⟩
  | reserve r name => exact ⟨hi, OrderedMap.erase_insert _ _ _⟩
  | rescope f => exact ⟨hi, rfl⟩
  | resolve h =>
    rcases resolve_ok h with ⟨rfl, -⟩ | ⟨-, -, ha, -⟩
    · exact ⟨hi, rfl⟩
    · rw [ha]
      exact ⟨hi, rfl⟩

theorem Effects.inside {id : FunctionId} {s s' : Session} (h : Effects id s s') (hi : Inside id s.assembler) :
    Inside id s'.assembler ∧ s'.assembler.drafts.erase id = s.assembler.drafts.erase id := by
  induction h with
  | refl => exact ⟨hi, rfl⟩
  | tail _ hstep ih =>
    obtain ⟨h₁, h₂⟩ := hstep.inside ih.1
    exact ⟨h₁, h₂.trans ih.2⟩

/-! ## Bodies -/

/-- The session with the entry region of the function `id`, and the insertion point in it. -/
def begun (id : FunctionId) (s : Session) : Session :=
  { s with assembler := (s.assembler.addRegion id "entry").2.moveTo (s.assembler.addRegion id "entry").1 }

theorem begun_inside (id : FunctionId) (s : Session) : Inside id (begun id s).assembler := ⟨_, rfl⟩

theorem begun_drafts (id : FunctionId) (s : Session) :
    (begun id s).assembler.drafts.erase id = s.assembler.drafts.erase id :=
  OrderedMap.erase_insert _ _ _

theorem begun_kept (id : FunctionId) (s : Session) : Kept s (begun id s) := .of_code rfl

/-- The code of a function, from its entry region on to where it can be finished. -/
def lowerCode {E : Type} [Emitter E] (f : Function) (entry : Place) : CompileWith E Unit := inScope do
  lowerParams entry 0 f.proto.params
  let v ← lowerStmt entry none f.body
  closeAfter (pure ()) (.ret v)

theorem lowerBody_eq (f : Function) (id : FunctionId) (s : Session) :
    lowerBody f id s =
      (lowerCode f (s.assembler.addRegion id "entry").1 >>= fun _ => finish f.proto.pos id) (begun id s) := rfl

/-- The code of a function makes the calls in its body. -/
theorem lowerCode_asks (f : Function) (entry : Place) : Asks entry.function f.body.calls (lowerCode f entry) :=
  inScope_asks <| (lowerParams_asks entry _ 0).andThen fun _ =>
    (lowerStmt_asks entry none f.body).before fun _ => closeAfter_asks (.pure _) _

theorem lowerCode_follows (f : Function) (entry : Place) : Follows entry.function (lowerCode f entry) :=
  (lowerCode_asks f entry).follows

/-- A body is lowered by changes for its own function, and finished only if they succeed. -/
theorem lowerBody_effects (f : Function) (id : FunctionId) (s : Session) :
    ∃ t, Effects id (begun id s) t ∧
      ((∃ d, lowerBody f id s = .error d t) ∨
        (lowerCode f (s.assembler.addRegion id "entry").1 (begun id s) = .ok () t ∧
          lowerBody f id s = finish f.proto.pos id t)) := by
  have hf := lowerCode_follows f (s.assembler.addRegion id "entry").1 (begun id s)
  rw [lowerBody_eq, bind_apply]
  cases h : lowerCode f (s.assembler.addRegion id "entry").1 (begun id s) with
  | ok a t =>
    rw [after_ok h] at hf
    exact ⟨t, hf, Or.inr ⟨rfl, rfl⟩⟩
  | error d t =>
    rw [after_error h] at hf
    exact ⟨t, hf, Or.inl ⟨d, rfl⟩⟩

end Funclet.Lowering
