import Funclet.Proofs.Machine.Running

/-!
# Function numbers do not show

* `Inst.Alike R`, `Region.Alike R`, `Body.Alike R` : the same code, where `R` relates the functions that are called;
* `Program.Alike R` : functions that `R` relates have bodies that are alike, and it relates the entry functions;
* `resume_alike`, `callFor_alike` : what calls related functions runs in the same way, step by step;
* `runEntry_alike` : so programs that are alike have the same runs.
-/

namespace Funclet

variable {R S : FunctionId → FunctionId → Prop}

/-- The same instruction, where the functions that are called are related. -/
inductive Inst.Alike (R : FunctionId → FunctionId → Prop) : Inst → Inst → Prop
  | same (i : Inst) (h : ∀ dest g vs, i ≠ .call dest g vs) : Alike R i i
  | call (dest : ValueId) {g h : FunctionId} (vs : List ValueId) (hR : R g h) :
      Alike R (.call dest g vs) (.call dest h vs)

structure Region.Alike (R : FunctionId → FunctionId → Prop) (g h : Region) : Prop where
  label : g.label = h.label
  insts : ∀ k : Nat, Option.Rel (Inst.Alike R) g.insts[k]? h.insts[k]?
  terminator : g.terminator = h.terminator

/-- The same code under the same name, up to the numbers of functions. -/
structure Body.Alike (R : FunctionId → FunctionId → Prop) (b c : Body) : Prop where
  name : b.name = c.name
  slots : b.slots = c.slots
  values : b.valueCount = c.valueCount
  regions : ∀ q : Nat, Option.Rel (Region.Alike R) b.regions[q]? c.regions[q]?

structure Program.Alike (R : FunctionId → FunctionId → Prop) (p q : Program) : Prop where
  entry : Option.Rel R p.entry q.entry
  bodies : ∀ g h, R g h →
    ∃ b c, p.body? g = some b ∧ q.body? h = some c ∧ b.params = c.params ∧ b.Alike R c

/-! ## Relations -/

theorem optionRel_iff {α β : Type} {P : α → β → Prop} {x : Option α} {y : Option β} :
    Option.Rel P x y ↔ x = none ∧ y = none ∨ ∃ a b, x = some a ∧ y = some b ∧ P a b := by
  constructor
  · rintro (hab | _)
    · exact Or.inr ⟨_, _, rfl, rfl, hab⟩
    · exact Or.inl ⟨rfl, rfl⟩
  · rintro (⟨rfl, rfl⟩ | ⟨a, b, rfl, rfl, hab⟩)
    · exact .none
    · exact .some hab

theorem optionRel_mono {α β : Type} {P Q : α → β → Prop} (h : ∀ a b, P a b → Q a b) {x : Option α} {y : Option β}
    (hxy : Option.Rel P x y) : Option.Rel Q x y := by
  cases hxy with
  | none => exact .none
  | some hab => exact .some (h _ _ hab)

theorem Inst.Alike.mono (h : ∀ f g, R f g → S f g) {i j : Inst} (hij : i.Alike R j) : i.Alike S j := by
  cases hij with
  | same i hi => exact .same i hi
  | call dest vs hR => exact .call dest vs (h _ _ hR)

theorem Region.Alike.mono (h : ∀ f g, R f g → S f g) {g g' : Region} (hg : g.Alike R g') : g.Alike S g' :=
  ⟨hg.label, fun k => optionRel_mono (fun _ _ => Inst.Alike.mono h) (hg.insts k), hg.terminator⟩

theorem Body.Alike.mono (h : ∀ f g, R f g → S f g) {b c : Body} (hb : b.Alike R c) : b.Alike S c :=
  ⟨hb.name, hb.slots, hb.values, fun q => optionRel_mono (fun _ _ => Region.Alike.mono h) (hb.regions q)⟩

namespace Machine

/-! ## Of a body, errors show the name -/

section Names

variable {b c : Body} (hname : b.name = c.name)
include hname

theorem read_congr (f : Frame) (v : ValueId) : read b f v = read c f v := by
  unfold read
  rw [hname]

theorem readAll_congr (f : Frame) (vs : List ValueId) : readAll b f vs = readAll c f vs := by
  induction vs with
  | nil => rfl
  | cons v vs ih => rw [readAll, readAll, read_congr hname, ih]

theorem define_congr (f : Frame) (v : ValueId) (x : Value) : define b f v x = define c f v x := by
  unfold define
  rw [hname]

theorem exit_congr (f : Frame) (r : RegionId) (t : Option Terminator) : exit b f r t = exit c f r t := by
  unfold exit
  split <;> simp only [read_congr hname, hname]

theorem exec_alike {call call' : FunctionId → List Value → Exec Value} (hcall : ∀ g h, R g h → call g = call' h)
    (args : List Value) (f : Frame) {i j : Inst} (hij : i.Alike R j) :
    exec call b args f i = exec call' c args f j := by
  cases hij with
  | call dest vs hR => simp only [exec, readAll_congr hname, define_congr hname, hcall _ _ hR]
  | same i hi =>
    cases i with
    | call dest g vs => exact absurd rfl (hi dest g vs)
    | _ => simp only [exec, read_congr hname, readAll_congr hname, define_congr hname, hname]

end Names

/-! ## Runs -/

theorem resume_alike {call call' : FunctionId → List Value → Exec Value} (hcall : ∀ g h, R g h → call g = call' h)
    {b c : Body} (hb : b.Alike R c) (limits : Limits) (args : List Value) (fuel : Nat) (r : RegionId) (k : Nat)
    (f : Frame) : resume limits call b args fuel r k f = resume limits call' c args fuel r k f := by
  induction fuel generalizing r k f with
  | zero =>
    rw [resume, resume]
    rcases optionRel_iff.1 (hb.regions r) with ⟨hg, hh⟩ | ⟨g, h, hg, hh, -⟩
    · rw [hg, hh, hb.name]
    · rw [hg, hh]
  | succ fuel ih =>
    rw [resume, resume]
    rcases optionRel_iff.1 (hb.regions r) with ⟨hg, hh⟩ | ⟨g, h, hg, hh, hregion⟩
    · rw [hg, hh, hb.name]
    · rw [hg, hh]
      dsimp only
      rcases optionRel_iff.1 (hregion.insts k) with ⟨hi, hj⟩ | ⟨i, j, hi, hj, hij⟩
      · rw [hi, hj]
        simp only [exit_congr hb.name, hregion.terminator, ih]
      · rw [hi, hj]
        simp only [exec_alike hb.name hcall args f hij, ih]

theorem activate_alike {call call' : FunctionId → List Value → Exec Value} (hcall : ∀ g h, R g h → call g = call' h)
    {b c : Body} (hb : b.Alike R c) (limits : Limits) (args : List Value) :
    activate limits call b args = activate limits call' c args := by
  have hframe : Frame.initial b = Frame.initial c := by
    rw [Frame.initial, Frame.initial, hb.values, hb.slots]
  funext m
  rw [activate, activate, hframe, resume_alike hcall hb]

variable {p q : Program}

theorem callFor_alike (hpq : p.Alike R q) (limits : Limits) (room : Nat) {g h : FunctionId} (hgh : R g h) :
    callFor p limits room g = callFor q limits room h := by
  induction room generalizing g h with
  | zero =>
    obtain ⟨b, c, hb, hc, hparams, hbc⟩ := hpq.bodies g h hgh
    funext args m
    rw [callFor_apply, callFor_apply, hb, hc]
    simp only [hparams, hbc.name]
  | succ room ih =>
    obtain ⟨b, c, hb, hc, hparams, hbc⟩ := hpq.bodies g h hgh
    funext args m
    rw [callFor_apply, callFor_apply, hb, hc]
    simp only [hparams, hbc.name, activate_alike (fun g h hR => ih hR) hbc]

/-- Programs that are alike cannot be told apart by running them. -/
theorem runEntry_alike (hpq : p.Alike R q) (limits : Limits) (name : String) (args : List Value) :
    runEntry p limits name args = runEntry q limits name args := by
  unfold runEntry
  rcases optionRel_iff.1 hpq.entry with ⟨hp, hq⟩ | ⟨g, h, hp, hq, hgh⟩
  · rw [hp, hq]
  · rw [hp, hq]
    funext m
    exact congrFun (congrFun (callFor_alike hpq limits _ hgh) args) m

end Machine

end Funclet
