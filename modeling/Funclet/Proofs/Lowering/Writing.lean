import Funclet.Proofs.Lowering.Drafts
import Funclet.Proofs.Lowering.Effects
import Funclet.Proofs.Scopes

/-!
# Writing code

* `Drafting id Γ D s` : in the session `s` the body `D` is under construction for the function `id`, and the scopes are
  the frames `Γ`; `Writing id Γ D r s` : moreover its open region `r` is being written;
* one lemma for each step that lowering is made of, with the body that it leads to;
* `Progress D R D' R'` : from `D` and the registry `R` to `D'` and `R'`, every new call is of a registered function, and
  every new placeholder has been called;
* `Written` : straight code has been written, with its progress; it composes (`Written.trans`).
-/

namespace Funclet.Lowering

/-- The body `D` is under construction for the function `id`, and the scopes are the frames `Γ`. -/
structure Drafting (id : FunctionId) (Γ : Frames SlotId) (D : Body) (s : Session) : Prop where
  draft : s.assembler.drafts.get? id = some D
  scopes : s.scopes.Represents [] Γ

/-- The open region `r` of the body under construction is being written. -/
structure Writing (id : FunctionId) (Γ : Frames SlotId) (D : Body) (r : Nat) (s : Session) : Prop
    extends Drafting id Γ D s where
  cursor : s.assembler.cursor = some ⟨id, r⟩
  isOpen : D.Open r

section Steps

variable {id : FunctionId} {Γ : Frames SlotId} {D : Body} {r : Nat} {s s' : Session}

theorem Drafting.draft_eq (h : Drafting id Γ D s) : s.assembler.draft id = D := by
  rw [Assembler.draft, h.draft]
  rfl

/-- What a name means is what the frames say. -/
theorem Drafting.lookup (h : Drafting id Γ D s) (name : String) : s.scopes.lookup name = Γ.lookup name := by
  rw [h.scopes.lookup, Frames.lookup, Frames.lookup]
  simp

/-! ## Instructions and terminators -/

theorem modifyRegion_eq {a : Assembler} (hc : a.cursor = some ⟨id, r⟩) (hd : a.drafts.get? id = some D)
    (f : Region → Region) : a.modifyRegion f = a.setDraft id { D with regions := D.regions.modify r f } := by
  rw [Assembler.modifyRegion, hc]
  dsimp only
  rw [hd]

theorem Writing.append (h : Writing id Γ D r s) {i : Inst} (hs : assemble_ (·.append i) s = .ok () s') :
    Writing id Γ (D.put r i) r s' ∧ s'.registry = s.registry := by
  obtain rfl : s' = { s with assembler := s.assembler.append i } := by cases hs; rfl
  rw [Assembler.append, modifyRegion_eq h.cursor h.draft]
  refine ⟨⟨⟨?_, h.scopes⟩, h.cursor, (Body.Wrote.put D r i).open h.isOpen⟩, rfl⟩
  exact (OrderedMap.get?_insert _ _ _ _).trans (if_pos rfl)

theorem Writing.emit (h : Writing id Γ D r s) {mk : ValueId → Inst} {v : ValueId}
    (hs : assemble (·.emit mk) s = .ok v s') :
    v = D.valueCount ∧ Writing id Γ (D.define r mk) r s' ∧ s'.registry = s.registry := by
  have hfresh : s.assembler.freshValue =
      (D.valueCount, s.assembler.setDraft id { D with valueCount := D.valueCount + 1 }) := by
    rw [Assembler.freshValue, h.cursor]
    dsimp only
    rw [h.draft_eq]
  have hd : (s.assembler.setDraft id { D with valueCount := D.valueCount + 1 }).drafts.get? id =
      some { D with valueCount := D.valueCount + 1 } :=
    (OrderedMap.get?_insert _ _ _ _).trans (if_pos rfl)
  simp only [assemble, Assembler.emit, hfresh] at hs
  cases hs
  rw [Assembler.append, modifyRegion_eq (a := s.assembler.setDraft id _) h.cursor hd]
  refine ⟨rfl, ⟨⟨?_, h.scopes⟩, h.cursor, (Body.Wrote.define D r mk).open h.isOpen⟩, rfl⟩
  exact (OrderedMap.get?_insert _ _ _ _).trans (if_pos rfl)

theorem Writing.close (h : Writing id Γ D r s) {t : Terminator} (hs : close t s = .ok () s') :
    Drafting id Γ (D.terminate r t) s' ∧ s'.registry = s.registry := by
  obtain rfl : s' = { s with assembler := s.assembler.close t } := by cases hs; rfl
  rw [Assembler.close, modifyRegion_eq h.cursor h.draft]
  exact ⟨⟨(OrderedMap.get?_insert _ _ _ _).trans (if_pos rfl), h.scopes⟩, rfl⟩

theorem Writing.isClosed (h : Writing id Γ D r s) : s.assembler.isClosed = false := by
  obtain ⟨g, hg, ht⟩ := h.isOpen
  simp only [Assembler.isClosed, h.cursor, h.draft, Option.bind_some, hg, ht, Option.isSome_none]

/-- The region that is being written is open, so it is closed after `before`. -/
theorem Writing.closeAfter (h : Writing id Γ D r s) {before : Compile Unit} {t : Terminator}
    (hs : closeAfter before t s = .ok () s') : ∃ s₁, before s = .ok () s₁ ∧ Lowering.close t s₁ = .ok () s' := by
  unfold Lowering.closeAfter at hs
  obtain ⟨c, s₀, h₀, hs⟩ := bind_ok hs
  cases h₀
  rw [Assembler.emitter_isClosed, h.isClosed] at hs
  obtain ⟨⟨⟩, s₁, h₁, hs⟩ := bind_ok hs
  exact ⟨s₁, h₁, hs⟩

/-! ## Regions, slots and scopes -/

theorem Drafting.moveTo (h : Drafting id Γ D s) {q : Nat} (hq : D.Open q) (hs : moveTo ⟨id, q⟩ s = .ok () s') :
    Writing id Γ D q s' ∧ s'.registry = s.registry := by
  cases hs
  exact ⟨⟨⟨h.draft, h.scopes⟩, rfl, hq⟩, rfl⟩

theorem Drafting.region (h : Drafting id Γ D s) {entry place : Place} {label : String} (he : entry.function = id)
    (hs : region entry label s = .ok place s') :
    place = ⟨id, D.regions.size⟩ ∧ Drafting id Γ (D.addRegion label) s' ∧ s'.registry = s.registry ∧
      s'.assembler.cursor = s.assembler.cursor := by
  cases hs
  rw [he, h.draft_eq]
  exact ⟨rfl, ⟨(OrderedMap.get?_insert _ _ _ _).trans (if_pos rfl), h.scopes⟩, rfl, rfl⟩

theorem Writing.region (h : Writing id Γ D r s) {entry place : Place} {label : String} (he : entry.function = id)
    (hs : region entry label s = .ok place s') :
    place = ⟨id, D.regions.size⟩ ∧ Writing id Γ (D.addRegion label) r s' ∧ s'.registry = s.registry := by
  obtain ⟨hplace, hd, hreg, hc⟩ := h.toDrafting.region he hs
  exact ⟨hplace, ⟨hd, hc.trans h.cursor, h.isOpen.congr (Body.regions_addRegion D label h.isOpen.lt)⟩, hreg⟩

/-- What follows a jump is written in a region of its own. -/
theorem Drafting.deadRegion (h : Drafting id Γ D s) {entry : Place} {label : String} (he : entry.function = id)
    (hs : deadRegion entry label s = .ok () s') :
    Writing id Γ (D.addRegion label) D.regions.size s' ∧ s'.registry = s.registry := by
  obtain ⟨place, s₁, h₁, hs⟩ := bind_ok hs
  obtain ⟨rfl, hd, hreg, -⟩ := h.region he h₁
  obtain ⟨hw, hreg'⟩ := hd.moveTo ⟨_, Body.region_addRegion D label, rfl⟩ hs
  exact ⟨hw, hreg'.trans hreg⟩

theorem Writing.reserve (h : Writing id Γ D r s) {entry : Place} {name : String} {slot : SlotId}
    (he : entry.function = id) (hs : reserve entry name s = .ok slot s') :
    slot = D.slots.size ∧ Writing id Γ (D.addSlot ⟨name, entry.region⟩) r s' ∧ s'.registry = s.registry := by
  cases hs
  rw [he, h.draft_eq]
  refine ⟨rfl, ⟨⟨?_, h.scopes⟩, h.cursor, h.isOpen⟩, rfl⟩
  exact (OrderedMap.get?_insert _ _ _ _).trans (if_pos rfl)

theorem Writing.enter (h : Writing id Γ D r s) (hs : rescope Scopes.enter s = .ok () s') :
    Writing id ([] :: Γ) D r s' ∧ s'.registry = s.registry := by
  cases hs
  exact ⟨⟨⟨h.draft, h.scopes.enter⟩, h.cursor, h.isOpen⟩, rfl⟩

theorem Writing.leave {f : List (String × SlotId)} (h : Writing id (f :: Γ) D r s)
    (hs : rescope Scopes.leave s = .ok () s') : Writing id Γ D r s' ∧ s'.registry = s.registry := by
  cases hs
  exact ⟨⟨⟨h.draft, h.scopes.leave⟩, h.cursor, h.isOpen⟩, rfl⟩

theorem Writing.bind {f : List (String × SlotId)} (h : Writing id (f :: Γ) D r s) {name : String} {slot : SlotId}
    (hs : rescope (·.declare name slot) s = .ok () s') :
    Writing id (((name, slot) :: f) :: Γ) D r s' ∧ s'.registry = s.registry := by
  cases hs
  exact ⟨⟨⟨h.draft, h.scopes.declare name slot⟩, h.cursor, h.isOpen⟩, rfl⟩

theorem Drafting.slotOf (h : Drafting id Γ D s) {pos : Pos} {name : String} {slot : SlotId}
    (hs : slotOf pos name s = .ok slot s') : Γ.lookup name = some slot ∧ s' = s := by
  unfold Lowering.slotOf at hs
  rw [h.lookup] at hs
  cases hl : Γ.lookup name with
  | none => rw [hl] at hs; cases hs
  | some a => rw [hl] at hs; cases hs; exact ⟨rfl, rfl⟩

end Steps

/-! ## Calls and placeholders -/

/-- From `D` and the registry `R` to `D'` and `R'`, nothing that is known has been lost, every new call is of a
registered function, and every new placeholder has been called. -/
structure Progress (D : Body) (R : Registry) (D' : Body) (R' : Registry) : Prop where
  confirmed : R'.confirmed = R.confirmed
  known : ∀ name n f, R.Knows name n f → R'.Knows name n f
  calls : ∀ f n, D'.Calls f n → D.Calls f n ∨ ∃ name, R'.Knows name n f
  met : ∀ name e, R'.pending.get? name = some e →
    R.pending.get? name = some e ∨ ∃ f n, D'.Calls f n ∧ R'.Knows name n f

namespace Progress

variable {D D₁ D₂ : Body} {R R₁ R₂ : Registry}

theorem trans (h₁ : Progress D R D₁ R₁) (h₂ : Progress D₁ R₁ D₂ R₂) (hext : D₁.Extends D₂) :
    Progress D R D₂ R₂ where
  confirmed := h₂.confirmed.trans h₁.confirmed
  known := fun name n f hk => h₂.known name n f (h₁.known name n f hk)
  calls := by
    intro f n hc
    rcases h₂.calls f n hc with hc | hk
    · rcases h₁.calls f n hc with hc | ⟨name, hk⟩
      · exact Or.inl hc
      · exact Or.inr ⟨name, h₂.known name n f hk⟩
    · exact Or.inr hk
  met := by
    intro name e he
    rcases h₂.met name e he with he | hm
    · rcases h₁.met name e he with he | ⟨f, n, hc, hk⟩
      · exact Or.inl he
      · exact Or.inr ⟨f, n, hext.calls hc, h₂.known name n f hk⟩
    · exact Or.inr hm

/-- A change that adds no calls. -/
theorem of_calls (h : ∀ f n, D₁.Calls f n → D.Calls f n) : Progress D R D₁ R :=
  ⟨rfl, fun _ _ _ hk => hk, fun f n hc => Or.inl (h f n hc), fun _ _ he => Or.inl he⟩

theorem refl (D : Body) (R : Registry) : Progress D R D R := of_calls fun _ _ hc => hc

/-- A call of a registered function. -/
theorem of_known {r : Nat} {v : ValueId} {f : FunctionId} {vs : List ValueId} {name : String}
    (hk : R.Knows name vs.length f) (hw : D.Wrote r [.call v f vs] D₁) : Progress D R D₁ R := by
  refine ⟨rfl, fun _ _ _ hk => hk, ?_, fun _ _ he => Or.inl he⟩
  intro g n hc
  rcases hw.calls hc with hc | ⟨dest, args, hmem, rfl⟩
  · exact Or.inl hc
  · cases List.mem_singleton.mp hmem
    exact Or.inr ⟨name, hk⟩

/-- A call, with the placeholder that has been made for it before its arguments were lowered. -/
theorem of_resolve {pos : Pos} {r : Nat} {v : ValueId} {f : FunctionId} {vs : List ValueId} {name : String}
    {s s₁ : Session} (hr : resolve pos name vs.length s = .ok f s₁) (hargs : Progress D s₁.registry D₁ R)
    (hw : D₁.Wrote r [.call v f vs] D₂) (ho : D₁.Open r) : Progress D s.registry D₂ R := by
  have hf : R.Knows name vs.length f := hargs.known _ _ _ (knows_of_resolve hr)
  have hcall : D₂.Calls f vs.length := hw.calls_of_mem ho List.mem_cons_self
  have hall := hargs.trans (of_known hf hw) (hw.grows ho).toExtends
  refine ⟨?_, ?_, hall.calls, ?_⟩
  · rw [hall.confirmed]
    rcases resolve_ok hr with ⟨rfl, -⟩ | ⟨-, -, -, hreg, -⟩
    · rfl
    · rw [hreg]
  · rintro j n g ⟨e, he, hn, hid⟩
    exact hall.known j n g ⟨e, find?_of_resolve hr he, hn, hid⟩
  · intro j e he
    rcases hall.met j e he with he | hm
    · rcases resolve_ok hr with ⟨rfl, -⟩ | ⟨-, -, -, hreg, -⟩
      · exact Or.inl he
      · rw [hreg] at he
        change (s.registry.pending.insert _ _).get? j = _ at he
        rw [OrderedMap.get?_insert] at he
        split at he
        · rename_i hj
          exact Or.inr ⟨f, vs.length, hcall, hj ▸ hf⟩
        · exact Or.inl he
    · exact Or.inr hm

end Progress

/-- Straight code: from `D` to `D'`, the instructions `is` have been written at the end of the region `r`. -/
structure Written (id : FunctionId) (D : Body) (r : Nat) (s : Session) (is : List Inst) (Γ' : Frames SlotId)
    (D' : Body) (s' : Session) : Prop where
  writing : Writing id Γ' D' r s'
  wrote : D.Wrote r is D'
  progress : Progress D s.registry D' s'.registry

section Written

variable {id : FunctionId} {Γ Γ₁ Γ₂ : Frames SlotId} {D D₁ D₂ : Body} {r : Nat} {s s₁ s₂ : Session}
  {is js : List Inst}

theorem Written.refl (h : Writing id Γ D r s) : Written id D r s [] Γ D s := ⟨h, .refl D r, .refl D _⟩

theorem Written.trans (h₁ : Written id D r s is Γ₁ D₁ s₁) (h₂ : Written id D₁ r s₁ js Γ₂ D₂ s₂) :
    Written id D r s (is ++ js) Γ₂ D₂ s₂ :=
  ⟨h₂.writing, h₁.wrote.trans h₂.wrote, h₁.progress.trans h₂.progress (h₂.wrote.grows h₁.writing.isOpen).toExtends⟩

/-- Code without calls. -/
theorem Written.of_wrote (hw : Writing id Γ₁ D₁ r s₁) (h : D.Wrote r is D₁) (hreg : s₁.registry = s.registry)
    (hcalls : ∀ dest f args, Inst.call dest f args ∉ is) : Written id D r s is Γ₁ D₁ s₁ := by
  refine ⟨hw, h, ?_⟩
  rw [hreg]
  refine .of_calls fun f n hc => ?_
  rcases h.calls hc with hc | ⟨dest, args, hmem, -⟩
  · exact hc
  · exact absurd hmem (hcalls dest f args)

/-- An instruction other than a call, which defines a value. -/
theorem Writing.defines (h : Writing id Γ D r s) {mk : ValueId → Inst} {v : ValueId}
    (hs : assemble (·.emit mk) s = .ok v s₁) (hmk : ∀ v dest f args, mk v ≠ .call dest f args) :
    v = D.valueCount ∧ ∃ D', Written id D r s [mk v] Γ D' s₁ ∧ D'.counts = D.counts.next := by
  obtain ⟨rfl, hw, hreg⟩ := h.emit hs
  refine ⟨rfl, _, .of_wrote hw (.define D r mk) hreg ?_, rfl⟩
  intro dest f args hmem
  exact hmk _ _ _ _ (List.mem_singleton.mp hmem).symm

theorem Writing.constant (h : Writing id Γ D r s) {c : Constant} {v : ValueId} (hs : constant c s = .ok v s₁) :
    v = D.valueCount ∧ ∃ D', Written id D r s [.const v c] Γ D' s₁ ∧ D'.counts = D.counts.next :=
  h.defines hs (by simp)

theorem Writing.load (h : Writing id Γ D r s) {slot : SlotId} {v : ValueId} (hs : load slot s = .ok v s₁) :
    v = D.valueCount ∧ ∃ D', Written id D r s [.load v slot] Γ D' s₁ ∧ D'.counts = D.counts.next :=
  h.defines hs (by simp)

theorem Writing.param (h : Writing id Γ D r s) {index : Nat} {v : ValueId} (hs : param index s = .ok v s₁) :
    v = D.valueCount ∧ ∃ D', Written id D r s [.param v index] Γ D' s₁ ∧ D'.counts = D.counts.next :=
  h.defines hs (by simp)

theorem Writing.primitive (h : Writing id Γ D r s) {op : Primitive} {x y v : ValueId}
    (hs : primitive op x y s = .ok v s₁) :
    v = D.valueCount ∧ ∃ D', Written id D r s [.primitive v op x y] Γ D' s₁ ∧ D'.counts = D.counts.next :=
  h.defines hs (by simp)

/-- An instruction other than a call, which defines nothing. -/
theorem Writing.puts (h : Writing id Γ D r s) {i : Inst} (hs : assemble_ (·.append i) s = .ok () s₁)
    (hi : ∀ dest f args, i ≠ .call dest f args) :
    ∃ D', Written id D r s [i] Γ D' s₁ ∧ D'.counts = D.counts := by
  obtain ⟨hw, hreg⟩ := h.append hs
  refine ⟨_, .of_wrote hw (.put D r i) hreg ?_, rfl⟩
  intro dest f args hmem
  exact hi _ _ _ (List.mem_singleton.mp hmem).symm

theorem Writing.store (h : Writing id Γ D r s) {slot : SlotId} {v : ValueId} (hs : store slot v s = .ok () s₁) :
    ∃ D', Written id D r s [.store slot v] Γ D' s₁ ∧ D'.counts = D.counts :=
  h.puts hs (by simp)

theorem Writing.print (h : Writing id Γ D r s) {vs : List ValueId} (hs : print vs s = .ok () s₁) :
    ∃ D', Written id D r s [.print vs] Γ D' s₁ ∧ D'.counts = D.counts :=
  h.puts hs (by simp)

theorem Writing.reserves (h : Writing id Γ D r s) {entry : Place} {name : String} {slot : SlotId}
    (he : entry.function = id) (hs : Lowering.reserve entry name s = .ok slot s₁) :
    slot = D.slots.size ∧ ∃ D', Written id D r s [] Γ D' s₁ ∧ D'.counts = D.counts.withSlot := by
  obtain ⟨rfl, hw, hreg⟩ := h.reserve he hs
  refine ⟨rfl, _, .of_wrote hw (.addSlot D r _) hreg (by simp), ?_⟩
  simp [Body.counts, Counts.withSlot, Body.addSlot]

/-- A call of a function that is registered. -/
theorem Writing.call (h : Writing id Γ D r s) {f : FunctionId} {vs : List ValueId} {v : ValueId} {name : String}
    {n : Nat} (hk : s.registry.Knows name n f) (hn : vs.length = n) (hs : call f vs s = .ok v s₁) :
    v = D.valueCount ∧ ∃ D', Written id D r s [.call v f vs] Γ D' s₁ ∧ D'.counts = D.counts.next := by
  obtain ⟨rfl, hw, hreg⟩ := h.emit hs
  have hwrote := Body.Wrote.define D r (.call · f vs)
  refine ⟨rfl, _, ⟨hw, hwrote, ?_⟩, rfl⟩
  rw [hreg]
  exact .of_known (hn ▸ hk) hwrote

end Written

end Funclet.Lowering
