import Funclet.Proofs.Lowering.Drafts

/-!
# Well-formed bodies

* `Inst.uses`, `Inst.dest?`, `Terminator.uses`, `Terminator.targets` : what code reads, defines and leads to;
* `Body.Reaches` : the regions that control can come to, along the branches from the first one;
* `Body.WellFormed` : all that code can be relied on for, once it is finished;
* `Body.Sound` : the same of code under construction. Regions behind a jump are told apart by their labels, since
  what control can come to is known only at the end;
* `Sound.write`, `Sound.terminate`, `Sound.addRegion`, `Sound.addSlot` : what each change of a body has to observe;
* `Sound.wellFormed` : sound code in which no region is open is well formed.
-/

namespace Funclet

/-! ## What code mentions -/

namespace Inst

def dest? : Inst → Option ValueId
  | .const dest _ | .param dest _ | .load dest _ | .primitive dest _ _ _ | .call dest _ _ => some dest
  | .store _ _ | .print _ => none

def uses : Inst → List ValueId
  | .const _ _ | .param _ _ | .load _ _ => []
  | .store _ value => [value]
  | .primitive _ _ lhs rhs => [lhs, rhs]
  | .call _ _ args => args
  | .print items => items

def slot? : Inst → Option SlotId
  | .load _ slot | .store slot _ => some slot
  | _ => none

def param? : Inst → Option Nat
  | .param _ index => some index
  | _ => none

end Inst

namespace Terminator

def uses : Terminator → List ValueId
  | .branch _ => []
  | .branchIf test _ _ => [test]
  | .ret value => [value]

def targets : Terminator → List RegionId
  | .branch target => [target]
  | .branchIf _ yes no => [yes, no]
  | .ret _ => []

end Terminator

/-- The region was opened for what follows a `RETURN` or a `CONTINUE`. -/
def Region.Dead (g : Region) : Prop := g.label = "after.return" ∨ g.label = "after.continue"

/-- One of the first `k` instructions of a region defines `v`. -/
def Region.Defines (g : Region) (k : Nat) (v : ValueId) : Prop :=
  ∃ j i, j < k ∧ g.insts[j]? = some i ∧ i.dest? = some v

/-- Every value that is read in a region is defined before in the same region. -/
structure Region.Ordered (g : Region) : Prop where
  insts : ∀ (k : Nat) (i : Inst), g.insts[k]? = some i → ∀ v ∈ i.uses, g.Defines k v
  terminator : ∀ t, g.terminator = some t → ∀ v ∈ t.uses, g.Defines g.insts.size v

namespace Body

/-- The region `q` exists, and it was not opened for what follows a jump. -/
def Live (b : Body) (q : RegionId) : Prop := ∃ g, b.regions[q]? = some g ∧ ¬g.Dead

def DefinedAt (b : Body) (p : Point) (v : ValueId) : Prop :=
  ∃ g i, b.regions[p.region]? = some g ∧ g.insts[p.index]? = some i ∧ i.dest? = some v

inductive Reaches (b : Body) : RegionId → Prop
  | start : Reaches b 0
  | jump {q q' : RegionId} {g : Region} {t : Terminator} (h : Reaches b q) (hg : b.regions[q]? = some g)
    (ht : g.terminator = some t) (hq : q' ∈ t.targets) : Reaches b q'

end Body

/-- All that an instruction of `b` mentions exists, where `b` has `params` parameters. -/
structure Inst.InRange (i : Inst) (b : Body) (params : Nat) : Prop where
  slot : ∀ x, i.slot? = some x → x < b.slots.size
  param : ∀ n, i.param? = some n → n < params
  uses : ∀ v ∈ i.uses, v < b.valueCount
  dest : ∀ v, i.dest? = some v → v < b.valueCount

/-- All that a terminator of `b` mentions exists, and it leads to nothing that follows a jump. -/
structure Terminator.InRange (t : Terminator) (b : Body) : Prop where
  uses : ∀ v ∈ t.uses, v < b.valueCount
  targets : ∀ q ∈ t.targets, b.Live q

namespace Body

/-- What holds of all code of a body with `params` parameters, finished or not. -/
structure Coherent (b : Body) (params : Nat) : Prop where
  entry : b.Live 0
  insts : ∀ (q : Nat) (g : Region), b.regions[q]? = some g → ∀ (k : Nat) (i : Inst), g.insts[k]? = some i →
    i.InRange b params
  terminators : ∀ (q : Nat) (g : Region) (t : Terminator), b.regions[q]? = some g → g.terminator = some t → t.InRange b
  defined : ∀ v < b.valueCount, ∃! p, b.DefinedAt p v

/-- All that finished code can be relied on for. -/
structure WellFormed (b : Body) : Prop extends Coherent b b.params where
  closed : ∀ (q : Nat) (g : Region), b.regions[q]? = some g → g.terminator ≠ none
  ordered : ∀ (q : Nat) (g : Region), b.Reaches q → b.regions[q]? = some g → g.Ordered

/-- All that holds of code under construction. -/
structure Sound (D : Body) (params : Nat) : Prop extends Coherent D params where
  ordered : ∀ (q : Nat) (g : Region), D.regions[q]? = some g → ¬g.Dead → g.Ordered

/-- Control never comes to what follows a jump. -/
theorem Coherent.live {b : Body} {params : Nat} (h : b.Coherent params) {q : RegionId} (hq : b.Reaches q) :
    b.Live q := by
  induction hq with
  | start => exact h.entry
  | jump _ hg ht hq _ => exact (h.terminators _ _ _ hg ht).targets _ hq

theorem Sound.wellFormed {D : Body} {params : Nat} (h : D.Sound params) (hclosed : ∀ q, ¬D.Open q) :
    { D with params }.WellFormed := by
  have hinst {i : Inst} (hi : i.InRange D params) : i.InRange { D with params } params :=
    ⟨hi.slot, hi.param, hi.uses, hi.dest⟩
  have hterm {t : Terminator} (ht : t.InRange D) : t.InRange { D with params } := ⟨ht.uses, ht.targets⟩
  have hcoherent : Coherent { D with params } params :=
    ⟨h.entry, fun q g hg k i hi => hinst (h.insts q g hg k i hi), fun q g t hg ht => hterm (h.terminators q g t hg ht),
      h.defined⟩
  refine ⟨hcoherent, fun q g hg hnone => hclosed q ⟨g, hg, hnone⟩, fun q g hq hg => ?_⟩
  obtain ⟨g', hg', hlive⟩ := hcoherent.live hq
  obtain rfl : g' = g := Option.some.inj (hg'.symm.trans hg)
  exact h.ordered q g' hg hlive

/-! ## Values at hand -/

/-- From `D` to `D'`, no value, slot or region has been lost. -/
structure Below (D D' : Body) : Prop where
  name : D'.name = D.name
  values : D.valueCount ≤ D'.valueCount
  slots : D.slots.size ≤ D'.slots.size
  live : ∀ q, D.Live q → D'.Live q

theorem Below.refl (D : Body) : Below D D := ⟨rfl, Nat.le_refl _, Nat.le_refl _, fun _ h => h⟩

theorem Below.trans {D D₁ D₂ : Body} (h₁ : Below D D₁) (h₂ : Below D₁ D₂) : Below D D₂ :=
  ⟨h₂.name.trans h₁.name, Nat.le_trans h₁.values h₂.values, Nat.le_trans h₁.slots h₂.slots,
    fun q h => h₂.live q (h₁.live q h)⟩

/-- The value `v` can be read at the end of the region `r`. -/
structure Avail (D : Body) (r : Nat) (v : ValueId) : Prop where
  lt : v < D.valueCount
  defined : ∀ g, D.regions[r]? = some g → ¬g.Dead → g.Defines g.insts.size v

/-- From `D` to `D'`, what can be read at the end of the region `r` still can. -/
structure Lengthens (D : Body) (r : Nat) (D' : Body) : Prop extends Below D D' where
  avail : ∀ v, D.Avail r v → D'.Avail r v

theorem Lengthens.refl (D : Body) (r : Nat) : Lengthens D r D := ⟨.refl D, fun _ h => h⟩

theorem Lengthens.trans {D D₁ D₂ : Body} {r : Nat} (h₁ : Lengthens D r D₁) (h₂ : Lengthens D₁ r D₂) :
    Lengthens D r D₂ := ⟨h₁.toBelow.trans h₂.toBelow, fun v h => h₂.avail v (h₁.avail v h)⟩

end Body

theorem Inst.InRange.mono {i : Inst} {D D' : Body} {params : Nat} (h : i.InRange D params) (hb : D.Below D') :
    i.InRange D' params where
  slot x hx := Nat.lt_of_lt_of_le (h.slot x hx) hb.slots
  param := h.param
  uses v hv := Nat.lt_of_lt_of_le (h.uses v hv) hb.values
  dest v hv := Nat.lt_of_lt_of_le (h.dest v hv) hb.values

theorem Terminator.InRange.mono {t : Terminator} {D D' : Body} (h : t.InRange D) (hb : D.Below D') : t.InRange D' where
  uses v hv := Nat.lt_of_lt_of_le (h.uses v hv) hb.values
  targets q hq := hb.live q (h.targets q hq)

/-! ## Instructions -/

def Region.push (g : Region) (i : Inst) : Region := { g with insts := g.insts.push i }

namespace Region

theorem Defines.mono {g : Region} {j k : Nat} {v : ValueId} (h : g.Defines j v) (hjk : j ≤ k) : g.Defines k v := by
  obtain ⟨l, i, hl, hi, hv⟩ := h
  exact ⟨l, i, by omega, hi, hv⟩

theorem insts_push_of_some {g : Region} {j : Nat} {i' : Inst} (h : g.insts[j]? = some i') (i : Inst) :
    (g.push i).insts[j]? = some i' := by
  have hj : j < g.insts.size := (Array.getElem?_eq_some_iff.mp h).1
  rw [push, Array.getElem?_push, if_neg (by omega), h]

theorem Defines.push {g : Region} {k : Nat} {v : ValueId} (h : g.Defines k v) (i : Inst) : (g.push i).Defines k v := by
  obtain ⟨j, i', hj, hi', hv⟩ := h
  exact ⟨j, i', hj, insts_push_of_some hi' i, hv⟩

theorem defines_push {g : Region} {i : Inst} {v : ValueId} (h : i.dest? = some v) :
    (g.push i).Defines (g.push i).insts.size v := by
  refine ⟨g.insts.size, i, ?_, ?_, h⟩
  · rw [Region.push, Array.size_push]
    omega
  · rw [Region.push, Array.getElem?_push, if_pos rfl]

theorem Ordered.push {g : Region} (h : g.Ordered) {i : Inst} (hi : ∀ v ∈ i.uses, g.Defines g.insts.size v) :
    (g.push i).Ordered := by
  have hsize : (g.push i).insts.size = g.insts.size + 1 := Array.size_push _
  refine ⟨fun k i' hk v hv => ?_, fun t ht v hv => ?_⟩
  · rw [Region.push, Array.getElem?_push] at hk
    split at hk
    · rename_i hlast
      cases hk
      subst hlast
      exact (hi v hv).push i
    · exact (h.insts k i' hk v hv).push i
  · exact ((h.terminator t ht v hv).push i).mono (by omega)

end Region

namespace Body

section Write

variable {D : Body} {r : Nat} {g : Region} (hg : D.regions[r]? = some g) (i : Inst) (m : Nat)
include hg

theorem regions_put (q : Nat) : (D.put r i).regions[q]? = if q = r then some (g.push i) else D.regions[q]? := by
  rw [put, Array.getElem?_modify]
  by_cases hq : q = r
  · rw [if_pos hq.symm, if_pos hq, hq, hg]
    rfl
  · rw [if_neg (Ne.symm hq), if_neg hq]

theorem definedAt_put (p : Point) (v : ValueId) :
    (D.put r i).DefinedAt p v ↔ D.DefinedAt p v ∨ p = ⟨r, g.insts.size⟩ ∧ i.dest? = some v := by
  constructor
  · rintro ⟨g', i', hg', hi', hv⟩
    rw [regions_put hg] at hg'
    split at hg'
    · rename_i hr
      cases hg'
      rw [Region.push, Array.getElem?_push] at hi'
      split at hi'
      · rename_i hlast
        cases hi'
        refine Or.inr ⟨?_, hv⟩
        rw [← hr, ← hlast]
      · exact Or.inl ⟨g, i', hr ▸ hg, hi', hv⟩
    · exact Or.inl ⟨g', i', hg', hi', hv⟩
  · rintro (⟨g', i', hg', hi', hv⟩ | ⟨rfl, hv⟩)
    · by_cases hr : p.region = r
      · obtain rfl : g = g' := Option.some.inj (hg.symm.trans (hr ▸ hg'))
        refine ⟨g.push i, i', ?_, Region.insts_push_of_some hi' i, hv⟩
        rw [regions_put hg, if_pos hr]
      · refine ⟨g', i', ?_, hi', hv⟩
        rw [regions_put hg, if_neg hr, hg']
    · refine ⟨g.push i, i, ?_, ?_, hv⟩
      · rw [regions_put hg, if_pos rfl]
      · rw [Region.push, Array.getElem?_push, if_pos rfl]

theorem open_put (q : Nat) : (D.put r i).Open q ↔ D.Open q := by
  unfold Open
  rw [regions_put hg]
  by_cases hq : q = r
  · subst hq
    simp [hg, Region.push]
  · rw [if_neg hq]

theorem Lengthens.put (hm : D.valueCount ≤ m) : Lengthens D r { D.put r i with valueCount := m } := by
  refine ⟨⟨rfl, hm, Nat.le_refl _, ?_⟩, ?_⟩
  · rintro q ⟨g', hg', hlive⟩
    by_cases hq : q = r
    · obtain rfl : g = g' := Option.some.inj (hg.symm.trans (hq ▸ hg'))
      exact ⟨g.push i, (regions_put hg i q).trans (if_pos hq), hlive⟩
    · exact ⟨g', ((regions_put hg i q).trans (if_neg hq)).trans hg', hlive⟩
  · intro v hv
    refine ⟨Nat.lt_of_lt_of_le hv.lt hm, fun g' hg' hlive => ?_⟩
    obtain rfl : g.push i = g' := Option.some.inj (((regions_put hg i r).trans (if_pos rfl)).symm.trans hg')
    have hsize : g.insts.size ≤ (g.push i).insts.size := by
      rw [Region.push, Array.size_push]
      omega
    exact ((hv.defined g hg hlive).push i).mono hsize

end Write

/-- Only the instruction itself can define the value that is new, if there is one. -/
theorem Coherent.defined_put {D : Body} {params r : Nat} {g : Region} (h : D.Coherent params)
    (hg : D.regions[r]? = some g) {i : Inst} {m : Nat}
    (hdest : i.dest? = none ∧ m = D.valueCount ∨ i.dest? = some D.valueCount ∧ m = D.valueCount + 1) {v : Nat}
    (hv : v < m) : ∃! p, (D.put r i).DefinedAt p v := by
  have hold {p : Point} (hp : D.DefinedAt p v) : v < D.valueCount := by
    obtain ⟨g', i', hg', hi', hdest'⟩ := hp
    exact (h.insts _ g' hg' _ i' hi').dest v hdest'
  simp only [definedAt_put hg]
  rcases hdest with ⟨hnone, rfl⟩ | ⟨hsome, rfl⟩
  · rw [hnone]
    simpa using h.defined v hv
  · by_cases hlt : v < D.valueCount
    · obtain ⟨p, hp, hunique⟩ := h.defined v hlt
      refine ⟨p, Or.inl hp, fun p' hp' => ?_⟩
      rcases hp' with hp' | ⟨-, hv'⟩
      · exact hunique p' hp'
      · have := Option.some.inj (hsome.symm.trans hv')
        omega
    · obtain rfl : v = D.valueCount := by omega
      refine ⟨⟨r, g.insts.size⟩, Or.inr ⟨rfl, hsome⟩, fun p' hp' => ?_⟩
      rcases hp' with hp' | ⟨hp', -⟩
      · exact absurd (hold hp') hlt
      · exact hp'

/-- An instruction reads what is at hand. It defines nothing, or the next value. -/
theorem Sound.write {D : Body} {params r : Nat} {g : Region} (h : D.Sound params) (hg : D.regions[r]? = some g)
    {i : Inst} {m : Nat}
    (hdest : i.dest? = none ∧ m = D.valueCount ∨ i.dest? = some D.valueCount ∧ m = D.valueCount + 1)
    (hslot : ∀ x, i.slot? = some x → x < D.slots.size) (hparam : ∀ n, i.param? = some n → n < params)
    (huses : ∀ v ∈ i.uses, D.Avail r v) : { D.put r i with valueCount := m }.Sound params := by
  have hm : D.valueCount ≤ m := by
    rcases hdest with ⟨-, rfl⟩ | ⟨-, rfl⟩ <;> omega
  have hbelow := (Lengthens.put hg i m hm).toBelow
  have hi : i.InRange { D.put r i with valueCount := m } params := by
    refine ⟨hslot, hparam, fun v hv => Nat.lt_of_lt_of_le (huses v hv).lt hm, fun v hv => ?_⟩
    rcases hdest with ⟨hnone, -⟩ | ⟨hsome, rfl⟩
    · rw [hnone] at hv
      cases hv
    · obtain rfl : D.valueCount = v := Option.some.inj (hsome.symm.trans hv)
      exact Nat.lt_succ_self _
  have hregion (q : Nat) (g' : Region) (hg' : (D.put r i).regions[q]? = some g') :
      q = r ∧ g' = g.push i ∨ q ≠ r ∧ D.regions[q]? = some g' := by
    rw [regions_put hg] at hg'
    split at hg'
    · exact Or.inl ⟨‹_›, (Option.some.inj hg').symm⟩
    · exact Or.inr ⟨‹_›, hg'⟩
  refine ⟨⟨hbelow.live 0 h.entry, ?_, ?_, fun v => h.defined_put hg hdest⟩, ?_⟩
  · intro q g' hg' k i' hi'
    rcases hregion q g' hg' with ⟨rfl, rfl⟩ | ⟨-, hg'⟩
    · rw [Region.push, Array.getElem?_push] at hi'
      split at hi'
      · cases hi'
        exact hi
      · exact (h.insts q g hg k i' hi').mono hbelow
    · exact (h.insts q g' hg' k i' hi').mono hbelow
  · intro q g' t hg' ht
    rcases hregion q g' hg' with ⟨rfl, rfl⟩ | ⟨-, hg'⟩
    · exact (h.terminators q g t hg ht).mono hbelow
    · exact (h.terminators q g' t hg' ht).mono hbelow
  · intro q g' hg' hlive
    rcases hregion q g' hg' with ⟨rfl, rfl⟩ | ⟨-, hg'⟩
    · exact (h.ordered q g hg hlive).push fun v hv => (huses v hv).defined g hg hlive
    · exact h.ordered q g' hg' hlive

/-! ## Terminators -/

section Terminate

variable {D : Body} {r : Nat} {g : Region} (hg : D.regions[r]? = some g) (hopen : g.terminator = none) (t : Terminator)
include hg hopen

theorem regions_terminate (q : Nat) :
    (D.terminate r t).regions[q]? = if q = r then some { g with terminator := some t } else D.regions[q]? := by
  rw [terminate, Array.getElem?_modify]
  by_cases hq : q = r
  · rw [if_pos hq.symm, if_pos hq, hq, hg, Option.map_some, hopen, Option.none_or]
  · rw [if_neg (Ne.symm hq), if_neg hq]

theorem open_terminate (q : Nat) : (D.terminate r t).Open q ↔ q ≠ r ∧ D.Open q := by
  unfold Open
  rw [regions_terminate hg hopen]
  by_cases hq : q = r
  · simp [hq]
  · simp [hq]

theorem Below.terminate : Below D (D.terminate r t) := by
  refine ⟨rfl, Nat.le_refl _, Nat.le_refl _, ?_⟩
  rintro q ⟨g', hg', hlive⟩
  unfold Live
  rw [regions_terminate hg hopen]
  by_cases hq : q = r
  · obtain rfl : g = g' := Option.some.inj (hg.symm.trans (hq ▸ hg'))
    exact ⟨_, if_pos hq, hlive⟩
  · exact ⟨g', (if_neg hq).trans hg', hlive⟩

/-- A terminator defines nothing. -/
theorem definedAt_terminate (p : Point) (v : ValueId) : (D.terminate r t).DefinedAt p v ↔ D.DefinedAt p v := by
  unfold DefinedAt
  rw [regions_terminate hg hopen]
  by_cases hq : p.region = r
  · rw [if_pos hq, hq, hg]
    simp
  · rw [if_neg hq]

/-- A terminator reads what is at hand, and leads to nothing that follows a jump. -/
theorem Sound.terminate {params : Nat} (h : D.Sound params) (huses : ∀ v ∈ t.uses, D.Avail r v)
    (htargets : ∀ q ∈ t.targets, D.Live q) : (D.terminate r t).Sound params := by
  have hbelow := Below.terminate hg hopen t
  have hregion (q : Nat) (g' : Region) (hg' : (D.terminate r t).regions[q]? = some g') :
      q = r ∧ g' = { g with terminator := some t } ∨ D.regions[q]? = some g' := by
    rw [regions_terminate hg hopen] at hg'
    split at hg'
    · exact Or.inl ⟨‹_›, (Option.some.inj hg').symm⟩
    · exact Or.inr hg'
  refine ⟨⟨hbelow.live 0 h.entry, ?_, ?_, ?_⟩, ?_⟩
  · intro q g' hg' k i hi
    rcases hregion q g' hg' with ⟨rfl, rfl⟩ | hg'
    · exact (h.insts q g hg k i hi).mono hbelow
    · exact (h.insts q g' hg' k i hi).mono hbelow
  · intro q g' t' hg' ht'
    rcases hregion q g' hg' with ⟨rfl, rfl⟩ | hg'
    · obtain rfl : t = t' := Option.some.inj ht'
      exact ⟨fun v hv => (huses v hv).lt, fun q' hq' => hbelow.live q' (htargets q' hq')⟩
    · exact (h.terminators q g' t' hg' ht').mono hbelow
  · intro v hv
    simp only [definedAt_terminate hg hopen]
    exact h.defined v hv
  · intro q g' hg' hlive
    rcases hregion q g' hg' with ⟨rfl, rfl⟩ | hg'
    · refine ⟨(h.ordered q g hg hlive).insts, fun t' ht' v hv => ?_⟩
      obtain rfl : t = t' := Option.some.inj ht'
      exact (huses v hv).defined g hg hlive
    · exact h.ordered q g' hg' hlive

end Terminate

/-! ## Regions and slots -/

section AddRegion

variable (D : Body) (label : String)

theorem getElem?_addRegion (q : Nat) :
    (D.addRegion label).regions[q]? = if q = D.regions.size then some ⟨label, #[], none⟩ else D.regions[q]? := by
  rw [addRegion, Array.getElem?_push]

theorem open_addRegion (q : Nat) : (D.addRegion label).Open q ↔ q = D.regions.size ∨ D.Open q := by
  unfold Open
  rw [getElem?_addRegion]
  by_cases hq : q = D.regions.size
  · simp [hq]
  · simp [hq]

theorem Below.addRegion : Below D (D.addRegion label) := by
  refine ⟨rfl, Nat.le_refl _, Nat.le_refl _, ?_⟩
  rintro q ⟨g, hg, hlive⟩
  have hq : q < D.regions.size := (Array.getElem?_eq_some_iff.mp hg).1
  exact ⟨g, (regions_addRegion D label hq).trans hg, hlive⟩

theorem live_addRegion (hlabel : label ≠ "after.return" ∧ label ≠ "after.continue") :
    (D.addRegion label).Live D.regions.size :=
  ⟨_, region_addRegion D label, not_or.2 hlabel⟩

/-- At the end of a region behind a jump, any value will do. -/
theorem avail_addRegion (hlabel : label = "after.return" ∨ label = "after.continue") {v : ValueId}
    (hv : v < D.valueCount) : (D.addRegion label).Avail D.regions.size v := by
  refine ⟨hv, fun g hg hlive => ?_⟩
  obtain rfl : ⟨label, #[], none⟩ = g := Option.some.inj ((region_addRegion D label).symm.trans hg)
  exact absurd hlabel hlive

theorem Sound.addRegion {params : Nat} (h : D.Sound params) : (D.addRegion label).Sound params := by
  have hbelow := Below.addRegion D label
  have hregion (q : Nat) (g : Region) (hg : (D.addRegion label).regions[q]? = some g) :
      g = ⟨label, #[], none⟩ ∨ D.regions[q]? = some g := by
    rw [getElem?_addRegion] at hg
    split at hg
    · exact Or.inl (Option.some.inj hg).symm
    · exact Or.inr hg
  have hdefined (p : Point) (v : ValueId) : (D.addRegion label).DefinedAt p v ↔ D.DefinedAt p v := by
    constructor
    · rintro ⟨g, i, hg, hi, hv⟩
      rcases hregion _ g hg with rfl | hg
      · cases hi
      · exact ⟨g, i, hg, hi, hv⟩
    · rintro ⟨g, i, hg, hi, hv⟩
      have hq : p.region < D.regions.size := (Array.getElem?_eq_some_iff.mp hg).1
      exact ⟨g, i, (regions_addRegion D label hq).trans hg, hi, hv⟩
  refine ⟨⟨hbelow.live 0 h.entry, ?_, ?_, ?_⟩, ?_⟩
  · intro q g hg k i hi
    rcases hregion q g hg with rfl | hg
    · cases hi
    · exact (h.insts q g hg k i hi).mono hbelow
  · intro q g t hg ht
    rcases hregion q g hg with rfl | hg
    · cases ht
    · exact (h.terminators q g t hg ht).mono hbelow
  · intro v hv
    simp only [hdefined]
    exact h.defined v hv
  · intro q g hg hlive
    rcases hregion q g hg with rfl | hg
    · exact ⟨fun _ _ hi => (nomatch hi), fun _ ht => (nomatch ht)⟩
    · exact h.ordered q g hg hlive

theorem Lengthens.addRegion {r : Nat} (hr : r < D.regions.size) : Lengthens D r (D.addRegion label) := by
  refine ⟨Below.addRegion D label, fun v hv => ⟨hv.lt, fun g hg => ?_⟩⟩
  rw [regions_addRegion D label hr] at hg
  exact hv.defined g hg

end AddRegion

theorem Lengthens.addSlot (D : Body) (r : Nat) (slot : Slot) : Lengthens D r (D.addSlot slot) := by
  refine ⟨⟨rfl, Nat.le_refl _, ?_, fun _ h => h⟩, fun _ hv => ⟨hv.lt, hv.defined⟩⟩
  rw [Body.addSlot, Array.size_push]
  omega

theorem Sound.addSlot {D : Body} {params : Nat} (h : D.Sound params) (slot : Slot) : (D.addSlot slot).Sound params := by
  have hbelow := (Lengthens.addSlot D 0 slot).toBelow
  exact ⟨⟨h.entry, fun q g hg k i hi => (h.insts q g hg k i hi).mono hbelow,
    fun q g t hg ht => (h.terminators q g t hg ht).mono hbelow, h.defined⟩, h.ordered⟩

end Body

end Funclet
