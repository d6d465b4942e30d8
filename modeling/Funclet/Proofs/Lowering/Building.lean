import Funclet.Proofs.Lowering.Recording
import Funclet.Proofs.Lowering.WellFormed
import Funclet.Proofs.Lowering.Writing

/-!
# Building sound code

* `Shaping T Γ D os s` : the sound body `D` is under construction at `T`, and its open regions are `os`;
  `Building T Γ D r fs s` : moreover the open region `r` is being written, and the other open ones are `fs`;
* `Builds step s Q` : `step` succeeds such that `Q` holds, or fails, but not because of unfinished code;
* `Goes`, `Moves` : what holds behind straight code, and behind code that may end in another region;
* one lemma for each step that lowering is made of;
* `lowerExpr_builds` … `lowerStmts_builds` : lowering builds sound code, whatever the tree, and leaves the regions that
  were open before as they are.
-/

namespace Funclet.Lowering

structure Site where
  id : FunctionId
  params : Nat

/-- The sound body `D` is under construction, and its open regions are `os`. Of what has been recorded nothing has come
behind a terminator. -/
structure Shaping (T : Site) (Γ : Frames SlotId) (D : Body) (os : List Nat) (s : Session Recording) : Prop
    extends Drafting T.id Γ D s.played where
  sound : D.Sound T.params
  opens : ∀ q, D.Open q ↔ q ∈ os
  nodup : os.Nodup
  slots : ∀ b ∈ Γ.flatten, b.2 < D.slots.size
  timely : s.assembler.behind = []

/-- The region `r` is being written; the other open ones are `fs`. -/
structure Building (T : Site) (Γ : Frames SlotId) (D : Body) (r : Nat) (fs : List Nat) (s : Session Recording) : Prop
    extends Shaping T Γ D (r :: fs) s where
  cursor : s.played.assembler.cursor = some ⟨T.id, r⟩

/-- The step succeeds such that `Q` holds, or fails, but not because of unfinished code. -/
def Builds {α : Type} (step : CompileWith Recording α) (s : Session Recording) (Q : α → Session Recording → Prop) :
    Prop :=
  match step s with
  | .ok a s' => Q a s'
  | .error d _ => ∀ e, d.cause ≠ .unfinished e

/-- Some code has been built since `D`, and writing goes on in some region. -/
def Moves (T : Site) (Γ : Frames SlotId) (D : Body) (fs : List Nat) (P : Body → Nat → Prop) (s : Session Recording) :
    Prop :=
  ∃ D' r', D.Below D' ∧ Building T Γ D' r' fs s ∧ P D' r'

/-- Straight code has been built since `D`, in the region `r`. -/
def Goes (T : Site) (Γ : Frames SlotId) (D : Body) (r : Nat) (fs : List Nat) (P : Body → Prop)
    (s : Session Recording) : Prop :=
  Moves T Γ D fs (fun D' r' => r = r' ∧ D.Lengthens r D' ∧ P D') s

/-! ## Sequences -/

section Sequences

variable {α β : Type} {T : Site} {Γ Γ' : Frames SlotId} {D D' : Body} {r : Nat} {fs fs' : List Nat}
  {s s' : Session Recording}
  {x : CompileWith Recording α} {f : α → CompileWith Recording β}

theorem Builds.of_ok {a : α} {Q : α → Session Recording → Prop} (h : x s = .ok a s') (hQ : Q a s') : Builds x s Q := by
  unfold Builds
  rw [h]
  exact hQ

theorem Builds.pure {a : α} {Q : α → Session Recording → Prop} (h : Q a s) : Builds (pure a) s Q := h

theorem Builds.throw {d : Diagnostic} {Q : α → Session Recording → Prop} (h : ∀ e, d.cause ≠ .unfinished e) :
    Builds (throw d) s Q := h

theorem Builds.bind {P : α → Session Recording → Prop} {Q : β → Session Recording → Prop} (hx : Builds x s P)
    (hf : ∀ a s', P a s' → Builds (f a) s' Q) : Builds (x >>= f) s Q := by
  unfold Builds at hx ⊢
  rw [bind_apply]
  cases h : x s with
  | ok a s' =>
    rw [h] at hx
    exact hf a s' hx
  | error d s' =>
    rw [h] at hx
    exact hx

/-- What is built is what the step returns. -/
theorem Builds.outcome {P : α → Session Recording → Prop} (hx : Builds x s P) :
    Builds x s fun a s' => x s = .ok a s' ∧ P a s' := by
  unfold Builds at hx ⊢
  cases hs : x s with
  | ok a s' =>
    rw [hs] at hx
    exact ⟨rfl, hx⟩
  | error d s' =>
    rw [hs] at hx
    exact hx

theorem Builds.mono {P Q : α → Session Recording → Prop} (hx : Builds x s P) (h : ∀ a s', P a s' → Q a s') :
    Builds x s Q := by
  unfold Builds at hx ⊢
  cases hs : x s with
  | ok a s' =>
    rw [hs] at hx
    exact h a s' hx
  | error d s' =>
    rw [hs] at hx
    exact hx

theorem Building.goes (h : Building T Γ D' r fs s) (hlen : D.Lengthens r D') {P : Body → Prop} (hP : P D') :
    Goes T Γ D r fs P s := ⟨D', r, hlen.toBelow, h, rfl, hlen, hP⟩

/-- Straight code and then more of it. -/
theorem Builds.then {P : α → Body → Prop} {Q : β → Body → Prop} (hx : Builds x s fun a => Goes T Γ D r fs (P a))
    (hf : ∀ a D' s', D.Lengthens r D' → Building T Γ D' r fs s' → P a D' →
      Builds (f a) s' fun b => Goes T Γ' D' r fs (Q b)) :
    Builds (x >>= f) s fun b => Goes T Γ' D r fs (Q b) := by
  refine hx.bind ?_
  rintro a s' ⟨D', _, -, hb, rfl, hlen, hP⟩
  refine (hf a D' s' hlen hb hP).mono ?_
  rintro b s'' ⟨D'', _, -, hb', rfl, hlen', hQ⟩
  exact hb'.goes (hlen.trans hlen') hQ

/-- Some code and then more of it. -/
theorem Builds.andThen {P : α → Body → Nat → Prop} {Q : β → Body → Nat → Prop}
    (hx : Builds x s fun a => Moves T Γ D fs (P a))
    (hf : ∀ a D' r' s', D.Below D' → Building T Γ D' r' fs s' → P a D' r' →
      Builds (f a) s' fun b => Moves T Γ' D' fs' (Q b)) :
    Builds (x >>= f) s fun b => Moves T Γ' D fs' (Q b) := by
  refine hx.bind ?_
  rintro a s' ⟨D', r', hbelow, hb, hP⟩
  refine (hf a D' r' s' hbelow hb hP).mono ?_
  rintro b s'' ⟨D'', r'', hbelow', hb', hQ⟩
  exact ⟨D'', r'', hbelow.trans hbelow', hb', hQ⟩

/-- Straight code, seen as any code. -/
theorem Builds.moves {P : α → Body → Prop} {Q : α → Body → Nat → Prop} (hx : Builds x s fun a => Goes T Γ D r fs (P a))
    (h : ∀ a D', P a D' → Q a D' r) : Builds x s fun a => Moves T Γ D fs (Q a) := by
  refine hx.mono ?_
  rintro a s' ⟨D', _, hbelow, hb, rfl, -, hP⟩
  exact ⟨D', r, hbelow, hb, h a D' hP⟩

theorem Builds.since {P : α → Body → Nat → Prop} (hx : Builds x s fun a => Moves T Γ D' fs (P a)) (h : D.Below D') :
    Builds x s fun a => Moves T Γ D fs (P a) := by
  refine hx.mono ?_
  rintro a s' ⟨D'', r', hbelow, hb, hP⟩
  exact ⟨D'', r', h.trans hbelow, hb, hP⟩

end Sequences

/-! ## Steps -/

section Steps

variable {α : Type} {T : Site} {Γ : Frames SlotId} {D : Body} {r : Nat} {fs os : List Nat} {s s' : Session Recording}

theorem Building.writing (h : Building T Γ D r fs s) : Writing T.id Γ D r s.played :=
  ⟨h.toDrafting, h.cursor, (h.opens r).2 List.mem_cons_self⟩

/-- Whatever is written now does not come behind a terminator. -/
theorem Building.timely_operate (h : Building T Γ D r fs s) (op : Operation) : (s.operate op).assembler.behind = [] :=
  (s.assembler.behind_perform_of_open op h.writing.isClosed).trans h.timely

/-- An instruction reads what is at hand. It defines nothing, or the next value. -/
theorem Building.write (h : Building T Γ D r fs s) {i : Inst} {m : Nat} {op : Operation}
    (hw : Writing T.id Γ { D.put r i with valueCount := m } r (s.operate op).played)
    (hdest : i.dest? = none ∧ m = D.valueCount ∨ i.dest? = some D.valueCount ∧ m = D.valueCount + 1)
    (hslot : ∀ x, i.slot? = some x → x < D.slots.size) (hparam : ∀ n, i.param? = some n → n < T.params)
    (huses : ∀ v ∈ i.uses, D.Avail r v) {P : Body → Prop} (hP : P { D.put r i with valueCount := m }) :
    Goes T Γ D r fs P (s.operate op) := by
  obtain ⟨g, hg, -⟩ := h.writing.isOpen
  have hm : D.valueCount ≤ m := by
    rcases hdest with ⟨-, rfl⟩ | ⟨-, rfl⟩ <;> omega
  have hopens (q : Nat) : ({ D.put r i with valueCount := m } : Body).Open q ↔ q ∈ r :: fs :=
    (Body.open_put hg i q).trans (h.opens q)
  have hb : Building T Γ { D.put r i with valueCount := m } r fs (s.operate op) :=
    ⟨⟨hw.toDrafting, h.sound.write hg hdest hslot hparam huses, hopens, h.nodup, h.slots, h.timely_operate op⟩,
      hw.cursor⟩
  exact hb.goes (.put hg i m hm) hP

/-- The operation writes the instruction `mk` for a new value. -/
theorem Building.defines (h : Building T Γ D r fs s) (op : Operation) (mk : ValueId → Inst)
    (hop : ∀ a : Assembler, a.apply op = (a.emit mk).2)
    (hdest : ∀ v, (mk v).dest? = some v) (hslot : ∀ v x, (mk v).slot? = some x → x < D.slots.size)
    (hparam : ∀ v n, (mk v).param? = some n → n < T.params) (huses : ∀ v, ∀ u ∈ (mk v).uses, D.Avail r u) :
    Goes T Γ D r fs (·.Avail r (s.played.assembler.emit mk).1) (s.operate op) := by
  obtain ⟨hv, hw, -⟩ := h.writing.emit (assemble_operate op (fun a => (hop a).symm) s)
  obtain ⟨g, hg, -⟩ := h.writing.isOpen
  rw [hv]
  refine h.write hw (Or.inr ⟨hdest _, rfl⟩) (hslot _) (hparam _) (huses _) ?_
  refine ⟨Nat.lt_succ_self _, fun g' hg' _ => ?_⟩
  obtain rfl : g.push (mk D.valueCount) = g' :=
    Option.some.inj (((Body.regions_put hg _ r).trans (if_pos rfl)).symm.trans hg')
  exact Region.defines_push (hdest _)

/-- The operation writes the instruction `i`. -/
theorem Building.puts (h : Building T Γ D r fs s) (op : Operation) {i : Inst}
    (hop : ∀ a : Assembler, a.apply op = a.append i) (hdest : i.dest? = none)
    (hslot : ∀ x, i.slot? = some x → x < D.slots.size) (hparam : ∀ n, i.param? = some n → n < T.params)
    (huses : ∀ v ∈ i.uses, D.Avail r v) : Goes T Γ D r fs (fun _ => True) (s.operate op) := by
  obtain ⟨hw, -⟩ := h.writing.append (change_operate op (fun a => (hop a).symm) s)
  exact h.write hw (Or.inl ⟨hdest, rfl⟩) hslot hparam huses trivial

theorem Building.constant (h : Building T Γ D r fs s) (c : Constant) :
    Builds (constant c) s fun v => Goes T Γ D r fs (·.Avail r v) :=
  .of_ok rfl (h.defines (.constant c) (.const · c) (fun _ => rfl) (fun _ => rfl)
    (fun _ _ hx => (nomatch hx)) (fun _ _ hn => (nomatch hn)) fun _ _ hu => (nomatch hu))

theorem Building.param (h : Building T Γ D r fs s) {i : Nat} (hi : i < T.params) :
    Builds (param i) s fun v => Goes T Γ D r fs (·.Avail r v) :=
  .of_ok rfl (h.defines (.param i) (.param · i) (fun _ => rfl) (fun _ => rfl)
    (fun _ _ hx => (nomatch hx)) (fun _ _ hn => by cases hn; exact hi) fun _ _ hu => (nomatch hu))

theorem Building.load (h : Building T Γ D r fs s) {slot : SlotId} (hslot : slot < D.slots.size) :
    Builds (load slot) s fun v => Goes T Γ D r fs (·.Avail r v) :=
  .of_ok rfl (h.defines (.load slot) (.load · slot) (fun _ => rfl) (fun _ => rfl)
    (fun _ _ hx => by cases hx; exact hslot) (fun _ _ hn => (nomatch hn)) fun _ _ hu => (nomatch hu))

theorem Building.primitive (h : Building T Γ D r fs s) (op : Primitive) {x y : ValueId} (hx : D.Avail r x)
    (hy : D.Avail r y) : Builds (primitive op x y) s fun v => Goes T Γ D r fs (·.Avail r v) := by
  refine .of_ok rfl (h.defines (.primitive op x y) (.primitive · op x y) (fun _ => rfl) (fun _ => rfl)
    (fun _ _ hx => (nomatch hx)) (fun _ _ hn => (nomatch hn)) fun _ u hu => ?_)
  rcases List.mem_pair.1 hu with rfl | rfl
  · exact hx
  · exact hy

theorem Building.call (h : Building T Γ D r fs s) (f : FunctionId) {vs : List ValueId} (hvs : ∀ v ∈ vs, D.Avail r v) :
    Builds (call f vs) s fun v => Goes T Γ D r fs (·.Avail r v) :=
  .of_ok rfl (h.defines (.call f vs) (.call · f vs) (fun _ => rfl) (fun _ => rfl)
    (fun _ _ hx => (nomatch hx)) (fun _ _ hn => (nomatch hn)) fun _ => hvs)

theorem Building.truth (h : Building T Γ D r fs s) {v : ValueId} (hv : D.Avail r v) :
    Builds (truth v) s fun t => Goes T Γ D r fs (·.Avail r t) :=
  (h.constant _).then fun _ _ _ hlen hb hz => hb.primitive .ne (hlen.avail v hv) hz

theorem Building.store (h : Building T Γ D r fs s) {slot : SlotId} {v : ValueId} (hslot : slot < D.slots.size)
    (hv : D.Avail r v) : Builds (store slot v) s fun _ => Goes T Γ D r fs fun _ => True := by
  refine .of_ok rfl (h.puts (.store slot v) (fun _ => rfl) rfl (fun _ hx => by cases hx; exact hslot)
    (fun _ hn => (nomatch hn)) fun u hu => ?_)
  rw [List.mem_singleton.1 hu]
  exact hv

theorem Building.print (h : Building T Γ D r fs s) {vs : List ValueId} (hvs : ∀ v ∈ vs, D.Avail r v) :
    Builds (print vs) s fun _ => Goes T Γ D r fs fun _ => True :=
  .of_ok rfl (h.puts (.print vs) (fun _ => rfl) rfl (fun _ hx => (nomatch hx)) (fun _ hn => (nomatch hn)) hvs)

theorem Building.reserve (h : Building T Γ D r fs s) {entry : Place} (he : entry.function = T.id) (name : String) :
    Builds (reserve entry name) s fun slot => Goes T Γ D r fs fun D' => slot < D'.slots.size := by
  have hs : Lowering.reserve entry name s.played =
      .ok (s.played.assembler.reserve entry name).1 (s.operate (.reserve entry name)).played :=
    assemble_operate (.reserve entry name) (fun _ => rfl) s
  obtain ⟨hslot, hw, -⟩ := h.writing.reserve he hs
  have hsize : (D.addSlot ⟨name, entry.region⟩).slots.size = D.slots.size + 1 := Array.size_push _
  have hb : Building T Γ (D.addSlot ⟨name, entry.region⟩) r fs (s.operate (.reserve entry name)) := by
    refine ⟨⟨hw.toDrafting, h.sound.addSlot _, h.opens, h.nodup, fun b hb => ?_, h.timely_operate _⟩, hw.cursor⟩
    rw [hsize]
    exact Nat.lt_succ_of_lt (h.slots b hb)
  refine .of_ok rfl (hb.goes (.addSlot D r _) ?_)
  change (s.played.assembler.reserve entry name).1 < _
  rw [hsize, hslot]
  exact Nat.lt_succ_self _

theorem Building.slotOf (h : Building T Γ D r fs s) (pos : Pos) (name : String) :
    Builds (slotOf pos name) s fun slot => Goes T Γ D r fs fun D' => slot < D'.slots.size := by
  have hlookup : s.scopes.lookup name = Γ.lookup name := h.lookup name
  cases hl : Γ.lookup name with
  | none =>
    unfold Builds Lowering.slotOf
    rw [hlookup, hl]
    exact fun e he => (nomatch he)
  | some x =>
    have hs : Lowering.slotOf pos name s = .ok x s := by
      rw [Lowering.slotOf, hlookup, hl]
    obtain ⟨bs, cs, hmem, -⟩ := List.lookup_eq_some_iff.1 hl
    refine .of_ok hs (h.goes (.refl D r) (h.slots (name, x) ?_))
    rw [hmem]
    exact List.mem_append_right bs List.mem_cons_self

theorem Building.operatorFunction (h : Building T Γ D r fs s) (pos : Pos) (fixity : Fixity) (op : Char) :
    Builds (operatorFunction pos fixity op) s fun _ => Goes T Γ D r fs fun _ => True := by
  have hgoes : Goes T Γ D r fs (fun _ => True) s := h.goes (.refl D r) trivial
  cases fixity
  all_goals
    unfold Builds Lowering.operatorFunction
    dsimp only
    split
    · rename_i heq
      split at heq <;> cases heq
      exact hgoes
    · rename_i heq
      split at heq <;> cases heq
      exact fun e he => (nomatch he)

theorem settleEntry_error {R : Registry} {name : String} {n : Nat} {pos : Pos} {d : Diagnostic}
    (h : R.settleEntry name n pos = .error d) (e : FinishError) : d.cause ≠ .unfinished e := by
  unfold Registry.settleEntry at h
  split at h
  · split at h
    · cases h
    · split at h <;> cases h
      exact fun he => by cases he
  · cases h

theorem resolve_error_cause {pos : Pos} {name : String} {n : Nat} {t : Session Recording} {d : Diagnostic}
    (h : resolve pos name n s = .error d t) (e : FinishError) : d.cause ≠ .unfinished e := by
  unfold Funclet.resolve at h
  split at h
  · split at h <;> cases h
    exact fun he => by cases he
  · split at h
    · rename_i herr
      cases h
      exact settleEntry_error herr e
    · cases h

theorem Building.resolve (h : Building T Γ D r fs s) (pos : Pos) (name : String) (n : Nat) :
    Builds (resolve pos name n) s fun _ => Goes T Γ D r fs fun _ => True := by
  cases hs : Funclet.resolve pos name n s with
  | error d s' =>
    unfold Builds
    rw [hs]
    exact resolve_error_cause hs
  | ok f s' =>
    obtain ⟨hplayed, hbehind⟩ := Records.declares (resolve_records pos name n s) hs
    obtain ⟨hsc, hdrafts, hcursor⟩ := resolve_code hplayed
    have hb : Building T Γ D r fs s' := by
      refine ⟨⟨⟨?_, ?_⟩, h.sound, h.opens, h.nodup, h.slots, hbehind.trans h.timely⟩, hcursor.trans h.cursor⟩
      · rw [hdrafts]
        exact h.draft
      · rw [hsc]
        exact h.scopes
    exact .of_ok hs (hb.goes (.refl D r) trivial)

/-! ## Regions and scopes -/

theorem Building.close (h : Building T Γ D r fs s) {t : Terminator} (huses : ∀ v ∈ t.uses, D.Avail r v)
    (htargets : ∀ q ∈ t.targets, D.Live q) :
    Builds (close t) s fun _ s' => ∃ D', D.Below D' ∧ D.valueCount = D'.valueCount ∧ Shaping T Γ D' fs s' := by
  have hs : Lowering.close t s.played = .ok () (s.operate (.close t)).played :=
    change_operate (.close t) (fun _ => rfl) s
  obtain ⟨hd, -⟩ := h.writing.close hs
  obtain ⟨g, hg, hopen⟩ := h.writing.isOpen
  have hnotin : r ∉ fs := (List.nodup_cons.1 h.nodup).1
  refine .of_ok rfl ⟨D.terminate r t, .terminate hg hopen t, rfl, hd, h.sound.terminate hg hopen t huses htargets,
    fun q => ?_, (List.nodup_cons.1 h.nodup).2, h.slots, h.timely_operate _⟩
  rw [Body.open_terminate hg hopen, h.opens, List.mem_cons]
  constructor
  · rintro ⟨hne, rfl | hq⟩
    · exact absurd rfl hne
    · exact hq
  · exact fun hq => ⟨fun heq => hnotin (heq ▸ hq), Or.inr hq⟩

/-- An operation without an instruction does not come behind a terminator. -/
theorem Shaping.timely_operate (h : Shaping T Γ D os s) {op : Operation}
    (hop : s.played.assembler.instruction? op = none) : (s.operate op).assembler.behind = [] :=
  (s.assembler.behind_perform_of_none op hop).trans h.timely

theorem Shaping.addRegion (h : Shaping T Γ D os s) {entry : Place} (he : entry.function = T.id) (label : String) :
    Builds (region entry label) s fun place s' => place = ⟨T.id, D.regions.size⟩ ∧
      Shaping T Γ (D.addRegion label) (D.regions.size :: os) s' ∧
      s'.played.assembler.cursor = s.played.assembler.cursor := by
  have hs : region entry label s.played = .ok (s.played.assembler.addRegion entry.function label).1
      (s.operate (.addRegion entry.function label)).played :=
    assemble_operate (.addRegion entry.function label) (fun _ => rfl) s
  obtain ⟨hplace, hd, -, hcursor⟩ := h.toDrafting.region he hs
  refine .of_ok rfl ⟨hplace, ⟨hd, .addRegion D label h.sound, fun q => ?_, ?_, h.slots, h.timely_operate rfl⟩, hcursor⟩
  · rw [Body.open_addRegion, h.opens, List.mem_cons]
  · refine List.nodup_cons.2 ⟨fun hmem => ?_, h.nodup⟩
    exact Nat.lt_irrefl _ ((h.opens _).2 hmem).lt

theorem Building.addRegion (h : Building T Γ D r fs s) {entry : Place} (he : entry.function = T.id) (label : String) :
    Builds (region entry label) s fun place s' => place = ⟨T.id, D.regions.size⟩ ∧
      Building T Γ (D.addRegion label) r (D.regions.size :: fs) s' := by
  refine (h.toShaping.addRegion he label).mono ?_
  rintro place s' ⟨rfl, hsh, hcursor⟩
  have hswap : (D.regions.size :: r :: fs).Perm (r :: D.regions.size :: fs) := .swap _ _ _
  exact ⟨rfl, ⟨hsh.toDrafting, hsh.sound, fun q => (hsh.opens q).trans hswap.mem_iff, hswap.nodup hsh.nodup, hsh.slots,
    hsh.timely⟩, hcursor.trans h.cursor⟩

/-- Writing goes on in a region that is open. -/
theorem Shaping.moveTo (h : Shaping T Γ D os s) (hos : os.Perm (r :: fs)) :
    Builds (moveTo ⟨T.id, r⟩) s fun _ s' => Building T Γ D r fs s' := by
  have hplayed := s.played_operate (.moveTo ⟨T.id, r⟩)
  refine .of_ok rfl ⟨⟨?_, h.sound, fun q => (h.opens q).trans hos.mem_iff, hos.nodup h.nodup, h.slots,
    h.timely_operate rfl⟩, ?_⟩
  · exact hplayed ▸ ⟨h.draft, h.scopes⟩
  · exact congrArg (·.assembler.cursor) hplayed

/-- What follows a jump is written in a region of its own. -/
theorem Shaping.deadRegion (h : Shaping T Γ D fs s) {entry : Place} (he : entry.function = T.id) {label : String}
    (hlabel : label = "after.return" ∨ label = "after.continue") :
    Builds (deadRegion entry label) s fun _ =>
      Moves T Γ D fs fun D' r' => ∀ v, v < D.valueCount → D'.Avail r' v := by
  refine (h.addRegion he label).bind ?_
  rintro place s' ⟨rfl, hsh, -⟩
  refine (hsh.moveTo (.refl _)).mono fun _ s'' hb => ?_
  exact ⟨_, _, .addRegion D label, hb, fun v hv => Body.avail_addRegion D label hlabel hv⟩

theorem Building.enter (h : Building T Γ D r fs s) :
    Builds (rescope Scopes.enter) s fun _ s' => Building T ([] :: Γ) D r fs s' :=
  .of_ok rfl ⟨⟨⟨h.draft, h.scopes.enter⟩, h.sound, h.opens, h.nodup, h.slots, h.timely⟩, h.cursor⟩

theorem Shaping.leave {f : List (String × SlotId)} (h : Shaping T (f :: Γ) D os s) :
    Builds (rescope Scopes.leave) s fun _ s' => Shaping T Γ D os s' ∧ s'.assembler = s.assembler := by
  refine .of_ok rfl ⟨⟨⟨h.draft, h.scopes.leave⟩, h.sound, h.opens, h.nodup, fun b hb => ?_, h.timely⟩, rfl⟩
  exact h.slots b (List.mem_append_right f hb)

theorem Building.inScope (h : Building T Γ D r fs s) {step : CompileWith Recording α} {P : α → Body → Nat → Prop}
    (hstep : ∀ s', Building T ([] :: Γ) D r fs s' → Builds step s' fun a s'' => ∃ f, Moves T (f :: Γ) D fs (P a) s'') :
    Builds (inScope step) s fun a => Moves T Γ D fs (P a) := by
  refine h.enter.bind fun _ s₁ hb₁ => (hstep s₁ hb₁).bind ?_
  rintro a s₂ ⟨f, D', r', hbelow, hb', hP⟩
  refine hb'.leave.bind ?_
  rintro _ s₃ ⟨hsh, hasm⟩
  refine .pure ⟨D', r', hbelow, ⟨hsh, ?_⟩, hP⟩
  unfold Session.played
  rw [hasm]
  exact hb'.cursor

theorem Building.bindName {f : List (String × SlotId)} (h : Building T (f :: Γ) D r fs s) (name : String)
    {slot : SlotId} (hslot : slot < D.slots.size) :
    Builds (rescope (·.declare name slot)) s fun _ s' => Building T (((name, slot) :: f) :: Γ) D r fs s' := by
  refine .of_ok rfl ⟨⟨⟨h.draft, h.scopes.declare name slot⟩, h.sound, h.opens, h.nodup, fun b hb => ?_, h.timely⟩,
    h.cursor⟩
  rcases List.mem_cons.1 hb with rfl | hb
  · exact hslot
  · exact h.slots b hb

/-- The region that is being written is open, so it is closed after `before`. -/
theorem Building.closeAfter (h : Building T Γ D r fs s) {before : CompileWith Recording Unit} {t : Terminator}
    (hbefore : Builds before s fun _ => Goes T Γ D r fs fun _ => True) (huses : ∀ v ∈ t.uses, D.Avail r v)
    (htargets : ∀ q ∈ t.targets, D.Live q) :
    Builds (closeAfter before t) s fun _ s' => ∃ D', D.Below D' ∧ Shaping T Γ D' fs s' := by
  have hs : isClosed s = .ok false s := congrArg (EStateM.Result.ok · s) h.writing.isClosed
  refine Builds.bind (.of_ok (Q := fun c s' => c = false ∧ s' = s) hs ⟨rfl, rfl⟩) ?_
  rintro _ _ ⟨rfl, rfl⟩
  refine hbefore.bind ?_
  rintro _ s₁ ⟨D', _, hbelow, hb, rfl, hlen, -⟩
  refine (hb.close (fun v hv => hlen.avail v (huses v hv)) fun q hq => hbelow.live q (htargets q hq)).mono ?_
  rintro _ s₂ ⟨D'', hbelow', -, hsh⟩
  exact ⟨D'', hbelow.trans hbelow', hsh⟩

end Steps

/-! ## Expressions -/

section Expressions

variable {T : Site} {entry : Place} {r : Nat} {fs : List Nat}

theorem Building.declare {Γ : Frames SlotId} {f : List (String × SlotId)} {D : Body} {s : Session Recording}
    (h : Building T (f :: Γ) D r fs s) (he : entry.function = T.id) (name : String) {v : ValueId} (hv : D.Avail r v) :
    Builds (declare entry name v) s fun _ s' => ∃ f', Goes T (f' :: Γ) D r fs (fun _ => True) s' := by
  refine (h.reserve he name).bind ?_
  rintro slot s₁ ⟨D₁, _, -, hb₁, rfl, hlen₁, hslot⟩
  refine (hb₁.store hslot (hlen₁.avail v hv)).bind ?_
  rintro _ s₂ ⟨D₂, _, -, hb₂, rfl, hlen₂, -⟩
  refine (hb₂.bindName name (Nat.lt_of_lt_of_le hslot hlen₂.slots)).mono fun _ s₃ hb₃ => ?_
  exact ⟨_, hb₃.goes (hlen₁.trans hlen₂) trivial⟩

mutual

theorem lowerExpr_builds (he : entry.function = T.id) :
    ∀ (e : Expr) (Γ : Frames SlotId) (D : Body) (s : Session Recording), Building T Γ D r fs s →
      Builds (lowerExpr entry e) s fun v => Goes T Γ D r fs (·.Avail r v)
  | .number _ _, Γ, D, s, h => by
    rw [lowerExpr]
    exact h.constant _
  | .text _ _, Γ, D, s, h => by
    rw [lowerExpr]
    exact h.constant _
  | .var pos name, Γ, D, s, h => by
    rw [lowerExpr]
    exact (h.slotOf pos name).then fun slot _ _ _ hb hslot => hb.load hslot
  | .unary pos op operand, Γ, D, s, h => by
    rw [lowerExpr]
    refine (lowerExpr_builds he operand Γ D s h).then fun v D₁ s₁ _ hb₁ hv => ?_
    refine (hb₁.operatorFunction pos .unary op).then fun f D₂ s₂ hlen₂ hb₂ _ => hb₂.call f fun u hu => ?_
    rw [List.mem_singleton.1 hu]
    exact hlen₂.avail v hv
  | .binary pos op lhs rhs, Γ, D, s, h => by
    by_cases hop : op = '='
    · subst hop
      by_cases hl : ∃ target name, lhs = .var target name
      · obtain ⟨target, name, rfl⟩ := hl
        rw [lowerExpr_assign]
        refine (lowerExpr_builds he rhs Γ D s h).then fun v D₁ s₁ _ hb₁ hv => ?_
        refine (hb₁.slotOf target name).then fun slot D₂ s₂ hlen₂ hb₂ hslot => ?_
        refine (hb₂.store hslot (hlen₂.avail v hv)).then fun _ D₃ s₃ hlen₃ hb₃ _ => ?_
        exact .pure (hb₃.goes (.refl D₃ r) (hlen₃.avail v (hlen₂.avail v hv)))
      · rw [lowerExpr_badDestination entry pos rhs fun target name heq => hl ⟨target, name, heq⟩]
        exact .throw fun e he => (nomatch he)
    · rw [lowerExpr_binary entry pos lhs rhs hop]
      refine (lowerExpr_builds he lhs Γ D s h).then fun v D₁ s₁ _ hb₁ hv => ?_
      refine (lowerExpr_builds he rhs Γ D₁ s₁ hb₁).then fun w D₂ s₂ hlen₂ hb₂ hw => ?_
      have hv₂ := hlen₂.avail v hv
      split
      · exact hb₂.primitive _ hv₂ hw
      · refine (hb₂.operatorFunction pos .binary op).then fun f D₃ s₃ hlen₃ hb₃ _ => hb₃.call f fun u hu => ?_
        rcases List.mem_pair.1 hu with rfl | rfl
        · exact hlen₃.avail _ hv₂
        · exact hlen₃.avail _ hw
  | .call pos callee args, Γ, D, s, h => by
    rw [lowerExpr]
    refine (h.resolve pos callee args.length).then fun f D₁ s₁ _ hb₁ _ => ?_
    exact (lowerExprs_builds he args Γ D₁ s₁ hb₁).then fun vs _ _ _ hb₂ hvs => hb₂.call f hvs
  | .letIn _ bindings body, Γ, D, s, h => by
    rw [lowerExpr]
    refine h.inScope fun s₁ hb₁ => (lowerBindings_builds he bindings Γ [] D s₁ hb₁).bind ?_
    rintro _ s₂ ⟨f, D₂, _, -, hb₂, rfl, hlen₂, -⟩
    refine (lowerExpr_builds he body (f :: Γ) D₂ s₂ hb₂).mono ?_
    rintro v s₃ ⟨D₃, _, -, hb₃, rfl, hlen₃, hv⟩
    exact ⟨f, hb₃.goes (hlen₂.trans hlen₃) hv⟩
termination_by structural e => e

theorem lowerExprs_builds (he : entry.function = T.id) :
    ∀ (es : List Expr) (Γ : Frames SlotId) (D : Body) (s : Session Recording), Building T Γ D r fs s →
      Builds (lowerExprs entry es) s fun vs => Goes T Γ D r fs fun D' => ∀ v ∈ vs, D'.Avail r v
  | [], Γ, D, s, h => by
    rw [lowerExprs]
    exact .pure (h.goes (.refl D r) fun v hv => (nomatch hv))
  | e :: es, Γ, D, s, h => by
    rw [lowerExprs]
    refine (lowerExpr_builds he e Γ D s h).then fun v D₁ s₁ _ hb₁ hv => ?_
    refine (lowerExprs_builds he es Γ D₁ s₁ hb₁).then fun vs D₂ s₂ hlen₂ hb₂ hvs => ?_
    refine .pure (hb₂.goes (.refl D₂ r) fun u hu => ?_)
    rcases List.mem_cons.1 hu with rfl | hu
    · exact hlen₂.avail _ hv
    · exact hvs u hu
termination_by structural es => es

theorem lowerBindings_builds (he : entry.function = T.id) : ∀ (bs : List Binding) (Γ : Frames SlotId)
    (f : List (String × SlotId)) (D : Body) (s : Session Recording), Building T (f :: Γ) D r fs s →
      Builds (lowerBindings entry bs) s fun _ s' => ∃ f', Goes T (f' :: Γ) D r fs (fun _ => True) s'
  | [], Γ, f, D, s, h => by
    rw [lowerBindings]
    exact .pure ⟨f, h.goes (.refl D r) trivial⟩
  | ⟨pos, name, none⟩ :: bs, Γ, f, D, s, h => by
    rw [lowerBindings]
    refine (h.constant _).bind ?_
    rintro v s₁ ⟨D₁, _, -, hb₁, rfl, hlen₁, hv⟩
    refine (hb₁.declare he name hv).bind ?_
    rintro _ s₂ ⟨f₂, D₂, _, -, hb₂, rfl, hlen₂, -⟩
    refine (lowerBindings_builds he bs Γ f₂ D₂ s₂ hb₂).mono ?_
    rintro _ s₃ ⟨f₃, D₃, _, -, hb₃, rfl, hlen₃, -⟩
    exact ⟨f₃, hb₃.goes ((hlen₁.trans hlen₂).trans hlen₃) trivial⟩
  | ⟨pos, name, some e⟩ :: bs, Γ, f, D, s, h => by
    rw [lowerBindings]
    refine (lowerExpr_builds he e (f :: Γ) D s h).bind ?_
    rintro v s₁ ⟨D₁, _, -, hb₁, rfl, hlen₁, hv⟩
    refine (hb₁.declare he name hv).bind ?_
    rintro _ s₂ ⟨f₂, D₂, _, -, hb₂, rfl, hlen₂, -⟩
    refine (lowerBindings_builds he bs Γ f₂ D₂ s₂ hb₂).mono ?_
    rintro _ s₃ ⟨f₃, D₃, _, -, hb₃, rfl, hlen₃, -⟩
    exact ⟨f₃, hb₃.goes ((hlen₁.trans hlen₂).trans hlen₃) trivial⟩
termination_by structural bs => bs

end

end Expressions

/-! ## Statements -/

section Statements

variable {T : Site} {entry : Place}

/-- A test ends the region that it stands in. -/
theorem lowerTest_builds (he : entry.function = T.id) {Γ : Frames SlotId} {D : Body} {r : Nat} {fs : List Nat}
    {s : Session Recording} (h : Building T Γ D r fs s) (test : Expr) {flag : SlotId} (hflag : flag < D.slots.size)
    {yes no : Place} (hyes : D.Live yes.region) (hno : D.Live no.region) :
    Builds (lowerTest entry test flag yes no) s fun _ s' => ∃ D', D.Below D' ∧ Shaping T Γ D' fs s' := by
  refine (lowerExpr_builds he test Γ D s h).bind ?_
  rintro v s₁ ⟨D₁, _, hbelow₁, hb₁, rfl, -, hv⟩
  refine (hb₁.truth hv).bind ?_
  rintro t s₂ ⟨D₂, _, hbelow₂, hb₂, rfl, -, ht⟩
  have hflag₂ := Nat.lt_of_lt_of_le hflag (hbelow₁.trans hbelow₂).slots
  refine (hb₂.store hflag₂ ht).bind ?_
  rintro _ s₃ ⟨D₃, _, hbelow₃, hb₃, rfl, -, -⟩
  refine (hb₃.load (Nat.lt_of_lt_of_le hflag₂ hbelow₃.slots)).bind ?_
  rintro current s₄ ⟨D₄, _, hbelow₄, hb₄, rfl, -, hcurrent⟩
  have hbelow := ((hbelow₁.trans hbelow₂).trans hbelow₃).trans hbelow₄
  refine (hb₄.close (fun u hu => ?_) fun q hq => ?_).mono ?_
  · rw [List.mem_singleton.1 hu]
    exact hcurrent
  · rcases List.mem_pair.1 hq with rfl | rfl
    · exact hbelow.live _ hyes
    · exact hbelow.live _ hno
  · rintro _ s₅ ⟨D₅, hbelow₅, -, hsh⟩
    exact ⟨D₅, hbelow.trans hbelow₅, hsh⟩

/-- What is known of a statement, for use in the statements that it stands in. -/
def StmtBuilds (T : Site) (step : CompileWith Recording ValueId) (targets : List RegionId) : Prop :=
  ∀ (Γ : Frames SlotId) (D : Body) (r : Nat) (fs : List Nat) (s : Session Recording), Building T Γ D r fs s →
    (∀ q ∈ targets, D.Live q) → Builds step s fun v => Moves T Γ D fs fun D' r' => D'.Avail r' v

theorem lowerArm_builds {Γ : Frames SlotId} {D : Body} {q : Nat} {os fs : List Nat} {s : Session Recording}
    {arm : CompileWith Recording ValueId} {targets : List RegionId} (harm : StmtBuilds T arm targets)
    (h : Shaping T Γ D os s) (hos : os.Perm (q :: fs)) (htargets : ∀ q ∈ targets, D.Live q) {result : SlotId}
    (hresult : result < D.slots.size) {merge : Place} (hmerge : D.Live merge.region) :
    Builds (lowerArm ⟨T.id, q⟩ result merge arm) s fun _ s' => ∃ D', D.Below D' ∧ Shaping T Γ D' fs s' := by
  refine (h.moveTo hos).bind fun _ s₁ hb₁ => ?_
  have hin := hb₁.inScope fun s₂ hb₂ => (harm _ _ _ _ _ hb₂ htargets).mono fun v s₃ hmoves => ⟨[], hmoves⟩
  refine hin.bind ?_
  rintro v s₂ ⟨D₂, r₂, hbelow₂, hb₂, hv⟩
  have hstore := hb₂.store (Nat.lt_of_lt_of_le hresult hbelow₂.slots) hv
  refine (hb₂.closeAfter (t := .branch merge.region) hstore (fun u hu => (nomatch hu)) fun q hq => ?_).mono ?_
  · rw [List.mem_singleton.1 hq]
    exact hbelow₂.live _ hmerge
  · rintro _ s₃ ⟨D₃, hbelow₃, hsh⟩
    exact ⟨D₃, hbelow₂.trans hbelow₃, hsh⟩

/-- The value of a conditional is what its arms have left in a slot. -/
theorem Shaping.resume {Γ : Frames SlotId} {D : Body} {q : Nat} {fs : List Nat} {s : Session Recording}
    (h : Shaping T Γ D (q :: fs) s) {result : SlotId} (hresult : result < D.slots.size) :
    Builds (do
      Lowering.moveTo ⟨T.id, q⟩
      Lowering.load result) s fun v => Moves T Γ D fs fun D' r' => D'.Avail r' v :=
  (h.moveTo (.refl _)).bind fun _ _ hb => (hb.load hresult).moves fun _ _ hv => hv

/-- The test of a conditional, and the slot for its value. -/
theorem lowerBranch_builds (he : entry.function = T.id) {Γ : Frames SlotId} {D : Body} {r : Nat} {fs : List Nat}
    {s : Session Recording} (h : Building T Γ D r fs s) (test : Expr)
    {rest : ValueId → SlotId → CompileWith Recording ValueId} {P : ValueId → Body → Nat → Prop}
    (hrest : ∀ flag result D' s', D.Below D' → Building T Γ D' r fs s' → D'.Avail r flag → result < D'.slots.size →
      Builds (rest flag result) s' fun v => Moves T Γ D' fs (P v)) :
    Builds (do
      let v ← lowerExpr entry test
      let flag ← truth v
      let result ← reserve entry "if.result"
      let z ← zero
      store result z
      rest flag result) s fun v => Moves T Γ D fs (P v) := by
  refine (lowerExpr_builds he test Γ D s h).andThen ?_
  rintro v D₁ _ s₁ hbelow₁ hb₁ ⟨rfl, -, hv⟩
  refine (hb₁.truth hv).andThen ?_
  rintro flag D₂ _ s₂ hbelow₂ hb₂ ⟨rfl, -, hflag⟩
  refine (hb₂.reserve he "if.result").andThen ?_
  rintro result D₃ _ s₃ hbelow₃ hb₃ ⟨rfl, hlen₃, hresult⟩
  refine (hb₃.constant _).andThen ?_
  rintro z D₄ _ s₄ hbelow₄ hb₄ ⟨rfl, hlen₄, hz⟩
  have hresult₄ := Nat.lt_of_lt_of_le hresult hbelow₄.slots
  refine (hb₄.store hresult₄ hz).andThen ?_
  rintro _ D₅ _ s₅ hbelow₅ hb₅ ⟨rfl, hlen₅, -⟩
  exact hrest flag result D₅ s₅ ((((hbelow₁.trans hbelow₂).trans hbelow₃).trans hbelow₄).trans hbelow₅) hb₅
    (hlen₅.avail _ (hlen₄.avail _ (hlen₃.avail _ hflag))) (Nat.lt_of_lt_of_le hresult₄ hbelow₅.slots)

theorem stmtBuilds_condThen (he : entry.function = T.id) (pos : Pos) (test : Expr) (yes : Stmt)
    {retest : Option Place} {targets : List RegionId} (hyes : StmtBuilds T (lowerStmt entry retest yes) targets) :
    StmtBuilds T (lowerStmt entry retest (.cond pos test yes none)) targets := by
  intro Γ D r fs s h htargets
  rw [lowerStmt]
  refine lowerBranch_builds he h test fun flag result D₁ s₁ hbelow₁ hb₁ hflag hresult => ?_
  have hr : r < D₁.regions.size := hb₁.writing.isOpen.lt
  refine (hb₁.addRegion he "then").bind ?_
  rintro _ s₂ ⟨rfl, hb₂⟩
  refine (hb₂.addRegion he "merge").bind ?_
  rintro _ s₃ ⟨rfl, hb₃⟩
  have hlen₂ := Body.Lengthens.addRegion D₁ "then" hr
  have hlen₃ := Body.Lengthens.addRegion (D₁.addRegion "then") "merge" hb₂.writing.isOpen.lt
  have hthen := hlen₃.live _ (Body.live_addRegion D₁ "then" (by decide))
  have hmerge := Body.live_addRegion (D₁.addRegion "then") "merge" (by decide)
  refine (hb₃.close (fun u hu => ?_) fun q hq => ?_).bind ?_
  · rw [List.mem_singleton.1 hu]
    exact hlen₃.avail _ (hlen₂.avail _ hflag)
  · rcases List.mem_pair.1 hq with rfl | rfl
    · exact hthen
    · exact hmerge
  rintro _ s₄ ⟨D₄, hbelow₄, -, hsh₄⟩
  have hbelow := (hlen₂.toBelow.trans hlen₃.toBelow).trans hbelow₄
  refine (lowerArm_builds hyes hsh₄ (.swap _ _ _) (fun q hq => (hbelow₁.trans hbelow).live q (htargets q hq))
    (Nat.lt_of_lt_of_le hresult hbelow.slots) (hbelow₄.live _ hmerge)).bind ?_
  rintro _ s₅ ⟨D₅, hbelow₅, hsh₅⟩
  exact (hsh₅.resume (Nat.lt_of_lt_of_le hresult (hbelow.trans hbelow₅).slots)).since (hbelow.trans hbelow₅)

theorem stmtBuilds_condElse (he : entry.function = T.id) (pos : Pos) (test : Expr) (yes no : Stmt)
    {retest : Option Place} {targets : List RegionId} (hyes : StmtBuilds T (lowerStmt entry retest yes) targets)
    (hno : StmtBuilds T (lowerStmt entry retest no) targets) :
    StmtBuilds T (lowerStmt entry retest (.cond pos test yes (some no))) targets := by
  intro Γ D r fs s h htargets
  rw [lowerStmt]
  refine lowerBranch_builds he h test fun flag result D₁ s₁ hbelow₁ hb₁ hflag hresult => ?_
  refine (hb₁.addRegion he "then").bind ?_
  rintro _ s₂ ⟨rfl, hb₂⟩
  refine (hb₂.addRegion he "else").bind ?_
  rintro _ s₃ ⟨rfl, hb₃⟩
  refine (hb₃.addRegion he "merge").bind ?_
  rintro _ s₄ ⟨rfl, hb₄⟩
  have hlen₂ := Body.Lengthens.addRegion D₁ "then" hb₁.writing.isOpen.lt
  have hlen₃ := Body.Lengthens.addRegion (D₁.addRegion "then") "else" hb₂.writing.isOpen.lt
  have hlen₄ := Body.Lengthens.addRegion ((D₁.addRegion "then").addRegion "else") "merge" hb₃.writing.isOpen.lt
  have hthen := hlen₄.live _ (hlen₃.live _ (Body.live_addRegion D₁ "then" (by decide)))
  have helse := hlen₄.live _ (Body.live_addRegion (D₁.addRegion "then") "else" (by decide))
  have hmerge := Body.live_addRegion ((D₁.addRegion "then").addRegion "else") "merge" (by decide)
  refine (hb₄.close (fun u hu => ?_) fun q hq => ?_).bind ?_
  · rw [List.mem_singleton.1 hu]
    exact hlen₄.avail _ (hlen₃.avail _ (hlen₂.avail _ hflag))
  · rcases List.mem_pair.1 hq with rfl | rfl
    · exact hthen
    · exact helse
  rintro _ s₅ ⟨D₅, hbelow₅, -, hsh₅⟩
  have hbelow := ((hlen₂.toBelow.trans hlen₃.toBelow).trans hlen₄.toBelow).trans hbelow₅
  have hresult₅ := Nat.lt_of_lt_of_le hresult hbelow.slots
  have htargets₅ (q : RegionId) (hq : q ∈ targets) : D₅.Live q := (hbelow₁.trans hbelow).live q (htargets q hq)
  -- The open regions are those of the merge, of the second arm and of the first one.
  refine (lowerArm_builds hyes hsh₅ (@List.perm_middle _ _ [_, _] fs) htargets₅ hresult₅
    (hbelow₅.live _ hmerge)).bind ?_
  rintro _ s₆ ⟨D₆, hbelow₆, hsh₆⟩
  refine (lowerArm_builds hno hsh₆ (.swap _ _ _) (fun q hq => hbelow₆.live q (htargets₅ q hq))
    (Nat.lt_of_lt_of_le hresult₅ hbelow₆.slots) (hbelow₆.live _ (hbelow₅.live _ hmerge))).bind ?_
  rintro _ s₇ ⟨D₇, hbelow₇, hsh₇⟩
  have hbelow' := hbelow₆.trans hbelow₇
  exact (hsh₇.resume (Nat.lt_of_lt_of_le hresult₅ hbelow'.slots)).since (hbelow.trans hbelow')

theorem stmtBuilds_loop (he : entry.function = T.id) (pos : Pos) (test : Expr) (body : Stmt)
    {retest : Option Place} {targets : List RegionId}
    (hbody : ∀ again : Place, StmtBuilds T (lowerStmt entry (some again) body) [again.region]) :
    StmtBuilds T (lowerStmt entry retest (.loop pos test body)) targets := by
  intro Γ D r fs s h _
  rw [lowerStmt]
  refine (h.reserve he "while.cond").bind ?_
  rintro flag s₁ ⟨D₁, _, hbelow₁, hb₁, rfl, -, hflag⟩
  refine (hb₁.addRegion he "loop").bind ?_
  rintro _ s₂ ⟨rfl, hb₂⟩
  refine (hb₂.addRegion he "loop.next").bind ?_
  rintro _ s₃ ⟨rfl, hb₃⟩
  refine (hb₃.addRegion he "after.loop").bind ?_
  rintro _ s₄ ⟨rfl, hb₄⟩
  have hbelow₂ := Body.Below.addRegion D₁ "loop"
  have hbelow₃ := Body.Below.addRegion (D₁.addRegion "loop") "loop.next"
  have hbelow₄ := Body.Below.addRegion ((D₁.addRegion "loop").addRegion "loop.next") "after.loop"
  have hpass := hbelow₄.live _ (hbelow₃.live _ (Body.live_addRegion D₁ "loop" (by decide)))
  have hagain := hbelow₄.live _ (Body.live_addRegion (D₁.addRegion "loop") "loop.next" (by decide))
  have hafter := Body.live_addRegion ((D₁.addRegion "loop").addRegion "loop.next") "after.loop" (by decide)
  refine (lowerTest_builds he hb₄ test hflag hpass hafter).bind ?_
  rintro _ s₅ ⟨D₅, hbelow₅, hsh₅⟩
  refine (hsh₅.moveTo (@List.perm_middle _ _ [_, _] fs)).bind fun _ s₆ hb₆ => ?_
  have hin := hb₆.inScope fun s₇ hb₇ => (hbody ⟨T.id, (D₁.addRegion "loop").regions.size⟩ _ _ _ _ _ hb₇ fun q hq => by
    rw [List.mem_singleton.1 hq]
    exact hbelow₅.live _ hagain).mono fun v s₈ hmoves => ⟨[], hmoves⟩
  refine hin.bind ?_
  rintro _ s₇ ⟨D₇, r₇, hbelow₇, hb₇, -⟩
  refine (hb₇.closeAfter (t := .branch (D₁.addRegion "loop").regions.size) (.pure (hb₇.goes (.refl D₇ r₇) trivial))
    (fun u hu => by cases hu) fun q hq => ?_).bind ?_
  · rw [List.mem_singleton.1 hq]
    exact hbelow₇.live _ (hbelow₅.live _ hagain)
  rintro _ s₈ ⟨D₈, hbelow₈, hsh₈⟩
  have hbelow' := (hbelow₅.trans hbelow₇).trans hbelow₈
  refine (hsh₈.moveTo (.swap _ _ _)).bind fun _ s₉ hb₉ => ?_
  refine (lowerTest_builds he hb₉ test (Nat.lt_of_lt_of_le hflag hbelow'.slots) (hbelow'.live _ hpass)
    (hbelow'.live _ hafter)).bind ?_
  rintro _ s₁₀ ⟨D₁₀, hbelow₁₀, hsh₁₀⟩
  have hall := (((hbelow₁.trans hbelow₂).trans (hbelow₃.trans hbelow₄)).trans hbelow').trans hbelow₁₀
  refine (hsh₁₀.moveTo (.refl _)).bind fun _ s₁₁ hb₁₁ => ?_
  exact ((hb₁₁.constant _).moves fun _ _ hv => hv).since hall

theorem stmtBuilds_ret (he : entry.function = T.id) (pos : Pos) (value : Expr) (retest : Option Place)
    (targets : List RegionId) : StmtBuilds T (lowerStmt entry retest (.ret pos value)) targets := by
  intro Γ D r fs s h _
  rw [lowerStmt]
  refine (lowerExpr_builds he value Γ D s h).bind ?_
  rintro v s₁ ⟨D₁, _, hbelow₁, hb₁, rfl, -, hv⟩
  refine (hb₁.close (t := .ret v) (fun u hu => ?_) fun q hq => by cases hq).bind ?_
  · rw [List.mem_singleton.1 hu]
    exact hv
  rintro _ s₂ ⟨D₂, hbelow₂, hcount, hsh₂⟩
  refine (hsh₂.deadRegion he (Or.inl rfl)).bind ?_
  rintro _ s₃ ⟨D₃, r₃, hbelow₃, hb₃, hv₃⟩
  -- Nothing leads to the region behind a jump, so every value is at hand there.
  exact .pure ⟨D₃, r₃, (hbelow₁.trans hbelow₂).trans hbelow₃, hb₃, hv₃ v (hcount ▸ hv.lt)⟩

theorem stmtBuilds_again (he : entry.function = T.id) (pos : Pos) (retest : Option Place) :
    StmtBuilds T (lowerStmt entry retest (.again pos)) (retest.map Place.region).toList := by
  intro Γ D r fs s h htargets
  rw [lowerStmt.eq_def]
  dsimp only
  cases retest with
  | none => exact .throw fun e he => by cases he
  | some target =>
    refine (h.close (t := .branch target.region) (fun u hu => by cases hu) htargets).bind ?_
    rintro _ s₁ ⟨D₁, hbelow₁, -, hsh₁⟩
    refine (hsh₁.deadRegion he (Or.inr rfl)).bind ?_
    rintro _ s₂ ⟨D₂, r₂, hbelow₂, hb₂, -⟩
    exact ((hb₂.constant _).moves fun _ _ hv => hv).since (hbelow₁.trans hbelow₂)

mutual

theorem lowerStmt_builds (he : entry.function = T.id) : ∀ (stmt : Stmt) (retest : Option Place),
    StmtBuilds T (lowerStmt entry retest stmt) (retest.map Place.region).toList
  | .assign pos name value, retest => by
    intro Γ D r fs s h _
    rw [lowerStmt]
    refine Builds.moves ((lowerExpr_builds he value Γ D s h).then fun v D₁ s₁ _ hb₁ hv => ?_) fun _ _ hv => hv
    refine (hb₁.slotOf pos name).then fun slot D₂ s₂ hlen₂ hb₂ hslot => ?_
    refine (hb₂.store hslot (hlen₂.avail v hv)).then fun _ D₃ s₃ hlen₃ hb₃ _ => ?_
    exact .pure (hb₃.goes (.refl D₃ r) (hlen₃.avail v (hlen₂.avail v hv)))
  | .ret pos value, retest => stmtBuilds_ret he pos value retest _
  | .print _ items, retest => by
    intro Γ D r fs s h _
    rw [lowerStmt]
    refine Builds.moves ((lowerExprs_builds he items Γ D s h).then fun vs D₁ s₁ _ hb₁ hvs => ?_) fun _ _ hv => hv
    exact (hb₁.print hvs).then fun _ _ _ _ hb₂ _ => hb₂.constant _
  | .again pos, retest => stmtBuilds_again he pos retest
  | .cond pos test yes none, retest => stmtBuilds_condThen he pos test yes (lowerStmt_builds he yes retest)
  | .cond pos test yes (some no), retest =>
    stmtBuilds_condElse he pos test yes no (lowerStmt_builds he yes retest) (lowerStmt_builds he no retest)
  | .loop pos test body, retest => stmtBuilds_loop he pos test body fun again => lowerStmt_builds he body (some again)
  | .block _ declared body, retest => by
    intro Γ D r fs s h htargets
    rw [lowerStmt]
    refine (h.inScope (P := fun last D' r' => ∀ v ∈ last, D'.Avail r' v) fun s₁ hb₁ => ?_).andThen ?_
    · refine (lowerBindings_builds he declared Γ [] D s₁ hb₁).bind ?_
      rintro _ s₂ ⟨f, D₂, _, hbelow₂, hb₂, rfl, -, -⟩
      have htargets₂ (q : RegionId) (hq : q ∈ (retest.map Place.region).toList) : D₂.Live q :=
        hbelow₂.live q (htargets q hq)
      refine (lowerStmts_builds he body retest (f :: Γ) D₂ r fs s₂ hb₂ htargets₂).mono ?_
      rintro last s₃ ⟨D₃, r₃, hbelow₃, hb₃, hlast⟩
      refine ⟨f, D₃, r₃, hbelow₂.trans hbelow₃, hb₃, fun v hv => ?_⟩
      exact hlast none (fun _ hw => (nomatch hw)) v (by simpa using hv)
    · intro last D' r' s' _ hb hlast
      cases last with
      | none => exact (hb.constant _).moves fun _ _ hv => hv
      | some v => exact .pure ⟨D', r', .refl D', hb, hlast v rfl⟩
  | .letIn _ bindings body, retest => by
    intro Γ D r fs s h htargets
    rw [lowerStmt]
    refine h.inScope fun s₁ hb₁ => (lowerBindings_builds he bindings Γ [] D s₁ hb₁).bind ?_
    rintro _ s₂ ⟨f, D₂, _, hbelow₂, hb₂, rfl, -, -⟩
    refine (lowerStmt_builds he body retest (f :: Γ) D₂ r fs s₂ hb₂ fun q hq => hbelow₂.live q (htargets q hq)).mono ?_
    rintro v s₃ ⟨D₃, r₃, hbelow₃, hb₃, hv⟩
    exact ⟨f, D₃, r₃, hbelow₂.trans hbelow₃, hb₃, hv⟩
termination_by structural stmt => stmt

/-- The value of the last statement is at hand behind it, or that of a statement before, where there is none. -/
theorem lowerStmts_builds (he : entry.function = T.id) : ∀ (stmts : List Stmt) (retest : Option Place)
    (Γ : Frames SlotId) (D : Body) (r : Nat) (fs : List Nat) (s : Session Recording), Building T Γ D r fs s →
      (∀ q ∈ (retest.map Place.region).toList, D.Live q) →
      Builds (lowerStmts entry retest stmts) s fun last => Moves T Γ D fs fun D' r' =>
        ∀ before : Option ValueId, (∀ v ∈ before, D.Avail r v) → ∀ v ∈ last.or before, D'.Avail r' v
  | [], retest, Γ, D, r, fs, s, h, _ => by
    rw [lowerStmts]
    exact .pure ⟨D, r, .refl D, h, fun before hbefore => hbefore⟩
  | stmt :: stmts, retest, Γ, D, r, fs, s, h, htargets => by
    rw [lowerStmts]
    refine (lowerStmt_builds he stmt retest Γ D r fs s h htargets).andThen ?_
    intro v D₁ r₁ s₁ hbelow₁ hb₁ hv
    refine (lowerStmts_builds he stmts retest Γ D₁ r₁ fs s₁ hb₁ fun q hq => hbelow₁.live q (htargets q hq)).andThen ?_
    intro last D₂ r₂ s₂ hbelow₂ hb₂ hlast
    refine .pure ⟨D₂, r₂, .refl D₂, hb₂, fun before _ u hu => hlast (some v) (fun w hw => ?_) u ?_⟩
    · cases hw
      exact hv
    · cases last <;> simpa using hu
termination_by structural stmts => stmts

end

end Statements

end Funclet.Lowering
