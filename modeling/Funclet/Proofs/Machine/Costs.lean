import Funclet.Proofs.Machine.Running

/-!
# What runs cost

Runs are compared for all limits at once: a part of a run has a cost in steps and depth, and if the limits leave less
than that, the machine stops at one of them.

* `Limited` : stopped by a limit;
* `Leads x t y t'` : for some cost, `x` goes on as `y` does if the limits allow for it, and else is stopped;
* `Exceeds x t n` : if no more than `n` steps are left, `x` is stopped;
* `Config`, `Config.Step`, `Config.Reaches`, `Config.Ends` : the same for a run of a body, with one lemma for each
  instruction and each terminator;
* `Leads.call`, `Exceeds.call` : calls, given the run of the body.
-/

namespace Funclet

def RuntimeError.isLimit : RuntimeError → Bool
  | stepLimit _ | stackOverflow _ => true
  | _ => false

namespace Machine

variable {α β : Type}

def Limited (r : EStateM.Result RuntimeError Machine α) : Prop := ∃ e m, r = .error e m ∧ e.isLimit

theorem not_limited_ok (a : α) (m : Machine) : ¬ Limited (.ok a m : EStateM.Result RuntimeError Machine α) := by
  rintro ⟨e, m', h, -⟩
  cases h

theorem limited_error_iff (e : RuntimeError) (m : Machine) :
    Limited (.error e m : EStateM.Result RuntimeError Machine α) ↔ e.isLimit = true := by
  constructor
  · rintro ⟨e', m', h, he⟩
    cases h
    exact he
  · exact fun he => ⟨e, m, rfl, he⟩

instance (r : EStateM.Result RuntimeError Machine α) : Decidable (Limited r) :=
  match r with
  | .ok a m => isFalse (not_limited_ok a m)
  | .error e m => decidable_of_iff _ (limited_error_iff e m).symm

theorem Limited.bind {x : Exec α} {m : Machine} (h : Limited (x m)) (f : α → Exec β) : Limited ((x >>= f) m) := by
  obtain ⟨e, m', hx, he⟩ := h
  exact ⟨e, m', by rw [bind_apply, hx], he⟩

theorem Limited.deeper {x : Exec α} {m : Machine} (h : Limited (x { m with depth := m.depth + 1 })) :
    Limited (deeper x m) := by
  obtain ⟨e, m', hx, he⟩ := h
  exact ⟨e, { m' with depth := m'.depth - 1 }, by rw [Machine.deeper, hx], he⟩

def printing (steps depth : Nat) (t : String) : Machine := ⟨steps, depth, ⟨t, none, false⟩⟩

/-- The limits leave `s` steps and `d` activations. -/
def Allow (limits : Limits) (steps depth s d : Nat) : Prop :=
  steps + s ≤ limits.maxSteps ∧ depth + d ≤ limits.maxCallDepth

/-! ## Costs -/

/-- For some cost, `x` goes on as `y` does if the limits allow for it, and else is stopped by a limit. By then, `t'` has
been printed in place of `t`. -/
def Leads (x : Limits → Exec α) (t : String) (y : Limits → Exec α) (t' : String) : Prop :=
  ∃ s d, ∀ limits steps depth, Allow limits steps depth 0 0 →
    (Allow limits steps depth s d → x limits (printing steps depth t) = y limits (printing (steps + s) depth t')) ∧
    (¬ Allow limits steps depth s d → Limited (x limits (printing steps depth t)))

/-- If no more than `n` steps are left, `x` is stopped by a limit. -/
def Exceeds (x : Limits → Exec α) (t : String) (n : Nat) : Prop :=
  ∀ limits steps depth, Allow limits steps depth 0 0 → limits.maxSteps < steps + n →
    Limited (x limits (printing steps depth t))

variable {x y z : Limits → Exec α} {t t' t'' : String} {n : Nat}

theorem Leads.of_eq (h : ∀ limits steps depth, x limits (printing steps depth t) = y limits (printing steps depth t')) :
    Leads x t y t' :=
  ⟨0, 0, fun limits steps depth ha => ⟨fun _ => h limits steps depth, fun hn => absurd ha hn⟩⟩

theorem Leads.refl (x : Limits → Exec α) (t : String) : Leads x t x t := .of_eq fun _ _ _ => rfl

theorem Leads.trans (h : Leads x t y t') (h' : Leads y t' z t'') : Leads x t z t'' := by
  obtain ⟨s, d, h⟩ := h
  obtain ⟨s', d', h'⟩ := h'
  refine ⟨s + s', max d d', fun limits steps depth ha => ?_⟩
  obtain ⟨hfits, hlimited⟩ := h limits steps depth ha
  by_cases hfirst : Allow limits steps depth s d
  · obtain ⟨hfits', hlimited'⟩ := h' limits (steps + s) depth ⟨hfirst.1, ha.2⟩
    rw [hfits hfirst, ← Nat.add_assoc]
    simp only [Allow] at hfirst hfits' hlimited' ⊢
    exact ⟨fun hall => hfits' (by omega), fun hall => hlimited' (by omega)⟩
  · simp only [Allow] at hfirst hlimited ⊢
    exact ⟨fun hall => absurd (by omega) hfirst, fun _ => hlimited hfirst⟩

theorem Exceeds.zero (x : Limits → Exec α) (t : String) : Exceeds x t 0 :=
  fun _ _ _ ha hn => absurd hn (Nat.not_lt.mpr ha.1)

theorem Exceeds.mono (h : Exceeds x t n) {k : Nat} (hk : k ≤ n) : Exceeds x t k :=
  fun limits steps depth ha hn => h limits steps depth ha (by omega)

theorem Exceeds.of_leads (h : Leads x t y t') (hy : Exceeds y t' n) : Exceeds x t n := by
  obtain ⟨s, d, h⟩ := h
  intro limits steps depth ha hn
  obtain ⟨hfits, hlimited⟩ := h limits steps depth ha
  by_cases hall : Allow limits steps depth s d
  · rw [hfits hall]
    exact hy limits (steps + s) depth ⟨hall.1, ha.2⟩ (by omega)
  · exact hlimited hall

/-- In one step, `x` goes on as `y` does, or else is stopped by the limit on steps. -/
def Ticks (x : Limits → Exec α) (t : String) (y : Limits → Exec α) (t' : String) : Prop :=
  ∀ limits steps depth, x limits (printing steps depth t) =
    if steps < limits.maxSteps then y limits (printing (steps + 1) depth t')
    else .error (.stepLimit limits.maxSteps) (printing (steps + 1) depth t)

theorem Ticks.limited (h : Ticks x t y t') {limits : Limits} {steps : Nat} (depth : Nat)
    (hs : limits.maxSteps ≤ steps) : Limited (x limits (printing steps depth t)) :=
  ⟨_, _, (h limits steps depth).trans (if_neg (Nat.not_lt.mpr hs)), rfl⟩

theorem Ticks.leads (h : Ticks x t y t') : Leads x t y t' := by
  refine ⟨1, 0, fun limits steps depth ha => ⟨fun hall => ?_, fun hall => ?_⟩⟩
  · exact (h limits steps depth).trans (if_pos hall.1)
  · exact h.limited depth (Nat.le_of_not_lt fun hlt => hall ⟨hlt, ha.2⟩)

theorem Ticks.exceeds (h : Ticks x t y t') (hy : Exceeds y t' n) : Exceeds x t (n + 1) := by
  intro limits steps depth ha hn
  by_cases hs : steps < limits.maxSteps
  · rw [h limits steps depth, if_pos hs]
    exact hy limits (steps + 1) depth ⟨hs, ha.2⟩ (by omega)
  · exact h.limited depth (Nat.le_of_not_lt hs)

theorem Ticks.congr (h : Ticks x t y t')
    (hy : ∀ limits steps depth, y limits (printing steps depth t') = z limits (printing steps depth t'')) :
    Ticks x t z t'' := by
  intro limits steps depth
  rw [h limits steps depth, hy]

def ending (r : Except RuntimeError α) : Limits → Exec α := fun _ =>
  match r with
  | .ok a => pure a
  | .error e => throw e

theorem Leads.bind {r : Except RuntimeError α} (h : Leads x t (ending r) t') (f : α → Limits → Exec β) :
    Leads (fun limits => x limits >>= fun a => f a limits) t
      (fun limits => ending r limits >>= fun a => f a limits) t' := by
  obtain ⟨s, d, h⟩ := h
  refine ⟨s, d, fun limits steps depth ha => ?_⟩
  obtain ⟨hfits, hlimited⟩ := h limits steps depth ha
  refine ⟨fun hall => ?_, fun hall => (hlimited hall).bind _⟩
  simp only [bind_apply, hfits hall]

theorem Exceeds.bind (h : Exceeds x t n) (f : α → Limits → Exec β) :
    Exceeds (fun limits => x limits >>= fun a => f a limits) t n :=
  fun limits steps depth ha hn => (h limits steps depth ha hn).bind _

/-! ## Calls -/

section Calls

variable {p : Program} {b : Body} {id : FunctionId} {xs : List Value}

theorem call_body (hb : p.body? id = some b) (hn : b.params = xs.length) (limits : Limits) {m : Machine}
    (hd : m.depth < limits.maxCallDepth) :
    call p limits id xs m = deeper (run p b xs limits ⟨0, 0⟩ (.initial b)) m := by
  rw [call_apply, hb]
  dsimp only
  rw [if_pos hn, if_neg (Nat.not_le.mpr hd)]
  rfl

theorem call_limited (hb : p.body? id = some b) (hn : b.params = xs.length) (limits : Limits) {m : Machine}
    (hd : limits.maxCallDepth ≤ m.depth) : Limited (call p limits id xs m) := by
  rw [call_apply, hb]
  dsimp only
  rw [if_pos hn, if_pos hd]
  exact ⟨_, _, rfl, rfl⟩

/-- A call ends as the run of the body does. -/
theorem Leads.call (hb : p.body? id = some b) (hn : b.params = xs.length) {r : Except RuntimeError Value}
    (h : Leads (fun limits => run p b xs limits ⟨0, 0⟩ (.initial b)) t (ending r) t') :
    Leads (fun limits => call p limits id xs) t (ending r) t' := by
  obtain ⟨s, d, h⟩ := h
  refine ⟨s, d + 1, fun limits steps depth ha => ?_⟩
  by_cases hd : depth < limits.maxCallDepth
  · obtain ⟨hfits, hlimited⟩ := h limits steps (depth + 1) ⟨ha.1, hd⟩
    simp only [call_body hb hn limits (m := printing steps depth t) hd]
    simp only [Allow] at hfits hlimited ⊢
    constructor
    · intro hall
      have hrun := hfits (by omega)
      simp only [printing] at hrun
      simp only [deeper, printing, hrun]
      cases r <;> rfl
    · intro hall
      exact (hlimited (by omega)).deeper
  · refine ⟨fun hall => ?_, fun _ => call_limited hb hn limits (Nat.le_of_not_lt hd)⟩
    simp only [Allow] at hall
    omega

theorem Exceeds.call (hb : p.body? id = some b) (hn : b.params = xs.length)
    (h : Exceeds (fun limits => run p b xs limits ⟨0, 0⟩ (.initial b)) t n) :
    Exceeds (fun limits => call p limits id xs) t n := by
  intro limits steps depth ha hsteps
  by_cases hd : depth < limits.maxCallDepth
  · simp only [call_body hb hn limits (m := printing steps depth t) hd]
    exact (h limits steps (depth + 1) ⟨ha.1, hd⟩ hsteps).deeper
  · exact call_limited hb hn limits (Nat.le_of_not_lt hd)

end Calls

/-! ## Runs of a body -/

/-- The state of a run: where it is, its values and slots, and what has been printed. -/
structure Config where
  point : Point
  frame : Frame
  text : String

def Frame.withValue (f : Frame) (v : ValueId) (x : Value) : Frame := { f with values := f.values.setIfInBounds v x }

def Frame.withSlot (f : Frame) (s : SlotId) (x : Value) : Frame := { f with slots := f.slots.setIfInBounds s x }

namespace Config

variable (p : Program) (b : Body) (A : List Value)

def run (C : Config) : Limits → Exec Value := fun limits => Machine.run p b A limits C.point C.frame

/-- For some cost, the run gets from one state to another. -/
def Reaches (C C' : Config) : Prop := Leads (C.run p b A) C.text (C'.run p b A) C'.text

/-- For some cost, the run ends. -/
def Ends (C : Config) (r : Except RuntimeError Value) (t : String) : Prop := Leads (C.run p b A) C.text (ending r) t

def Step (C C' : Config) : Prop := Ticks (C.run p b A) C.text (C'.run p b A) C'.text

variable {p b A} {C C' C'' : Config}

theorem Step.reaches (h : Step p b A C C') : Reaches p b A C C' := Ticks.leads h

theorem Reaches.trans (h : Reaches p b A C C') (h' : Reaches p b A C' C'') : Reaches p b A C C'' :=
  Leads.trans h h'

/-! ## Instructions -/

section Instructions

variable {q : Point} {f f' : Frame} {t t' : String} {i : Inst}

theorem ticks_inst (t' : String) (hat : CodeAt b q [i]) :
    Ticks (run p b A ⟨q, f, t⟩) t
      (fun limits => exec (call p limits) b A f i >>= fun f' => run p b A ⟨q.plus 1, f', t'⟩ limits) t := by
  intro limits steps depth
  obtain ⟨g, hg, hi⟩ := hat.inst
  rw [run, run_inst hg hi, bind_apply]
  by_cases hs : steps < limits.maxSteps
  · rw [if_pos hs, tick_ok limits (m := printing steps depth t) hs]
    rfl
  · rw [if_neg hs, tick_error limits (m := printing steps depth t) (Nat.le_of_not_lt hs)]
    rfl

theorem Step.of_exec (hat : CodeAt b q [i]) (h : ∀ call steps depth,
      exec call b A f i (printing steps depth t) = .ok f' (printing steps depth t')) :
    Step p b A ⟨q, f, t⟩ ⟨q.plus 1, f', t'⟩ := by
  refine (ticks_inst t' hat).congr fun limits steps depth => ?_
  rw [bind_apply, h]

theorem Ends.of_exec {e : RuntimeError} (hat : CodeAt b q [i]) (h : ∀ call steps depth,
      exec call b A f i (printing steps depth t) = .error e (printing steps depth t)) :
    Ends p b A ⟨q, f, t⟩ (.error e) t := by
  refine ((ticks_inst t hat).congr fun limits steps depth => ?_).leads
  rw [bind_apply, h]
  rfl

theorem read_ok {v : ValueId} {x : Value} (h : f.values[v]? = some x) : read b f v = pure x := by
  rw [read, h]

theorem define_ok {v : ValueId} (x : Value) (h : v < f.values.size) : define b f v x = pure (f.withValue v x) := by
  rw [define, if_pos h]
  rfl

theorem step_const {d : ValueId} {c : Constant} (hat : CodeAt b q [.const d c]) (hd : d < f.values.size) :
    Step p b A ⟨q, f, t⟩ ⟨q.plus 1, f.withValue d (.ofConstant c), t⟩ := by
  refine .of_exec hat fun call steps depth => ?_
  rw [exec, define_ok _ hd]
  rfl

theorem step_param {d : ValueId} {k : Nat} {x : Value} (hat : CodeAt b q [.param d k]) (hx : A[k]? = some x)
    (hd : d < f.values.size) : Step p b A ⟨q, f, t⟩ ⟨q.plus 1, f.withValue d x, t⟩ := by
  refine .of_exec hat fun call steps depth => ?_
  simp only [exec, hx]
  rw [define_ok _ hd]
  rfl

theorem step_load {d : ValueId} {s : SlotId} {x : Value} (hat : CodeAt b q [.load d s]) (hx : f.slots[s]? = some x)
    (hd : d < f.values.size) : Step p b A ⟨q, f, t⟩ ⟨q.plus 1, f.withValue d x, t⟩ := by
  refine .of_exec hat fun call steps depth => ?_
  simp only [exec, hx]
  rw [define_ok _ hd]
  rfl

theorem step_store {v : ValueId} {s : SlotId} {x : Value} (hat : CodeAt b q [.store s v]) (hx : f.values[v]? = some x)
    (hs : s < f.slots.size) : Step p b A ⟨q, f, t⟩ ⟨q.plus 1, f.withSlot s x, t⟩ := by
  refine .of_exec hat fun call steps depth => ?_
  rw [exec, read_ok hx, pure_bind, if_pos hs]
  rfl

section Primitive

variable {d l r : ValueId} {op : Primitive} {x y : Float} (hat : CodeAt b q [.primitive d op l r])
  (hl : f.values[l]? = some (.number x)) (hr : f.values[r]? = some (.number y))
include hat hl hr

theorem step_primitive {z : Float} (hz : op.apply x y = .ok z) (hd : d < f.values.size) :
    Step p b A ⟨q, f, t⟩ ⟨q.plus 1, f.withValue d (.number z), t⟩ := by
  refine .of_exec hat fun call steps depth => ?_
  simp only [exec, read_ok hl, read_ok hr, asNumber, pure_bind, hz]
  rw [define_ok _ hd]
  rfl

theorem ends_primitive {e : RuntimeError} (he : op.apply x y = .error e) : Ends p b A ⟨q, f, t⟩ (.error e) t := by
  refine .of_exec hat fun call steps depth => ?_
  simp only [exec, read_ok hl, read_ok hr, asNumber, pure_bind, he]
  rfl

end Primitive

/-- A text is no operand. -/
theorem ends_primitive_text {d l r : ValueId} {op : Primitive} {s : String} (hat : CodeAt b q [.primitive d op l r])
    (h : f.values[l]? = some (.text s) ∨ ∃ x, f.values[l]? = some (.number x) ∧ f.values[r]? = some (.text s)) :
    Ends p b A ⟨q, f, t⟩ (.error (.textInArithmetic (.operand op))) t := by
  refine .of_exec hat fun call steps depth => ?_
  rcases h with hl | ⟨x, hl, hr⟩
  · simp only [exec, read_ok hl, asNumber, pure_bind]
    rfl
  · simp only [exec, read_ok hl, read_ok hr, asNumber, pure_bind]
    rfl

def Holds (f : Frame) (vs : List ValueId) (xs : List Value) : Prop :=
  List.Forall₂ (fun v x => f.values[v]? = some x) vs xs

theorem readAll_ok {vs : List ValueId} {xs : List Value} (h : Holds f vs xs) : readAll b f vs = pure xs := by
  induction h with
  | nil => rfl
  | cons hx _ ih => rw [readAll, read_ok hx, pure_bind, ih, pure_bind]

theorem step_print {vs : List ValueId} {xs : List Value} (hat : CodeAt b q [.print vs]) (hvs : Holds f vs xs) :
    Step p b A ⟨q, f, t⟩ ⟨q.plus 1, f, t ++ String.join (xs.map Value.render) ++ "\n"⟩ := by
  refine .of_exec hat fun call steps depth => ?_
  rw [exec, readAll_ok hvs, pure_bind]
  rfl

section Call

variable {d : ValueId} {g : FunctionId} {vs : List ValueId} {xs : List Value} (hat : CodeAt b q [.call d g vs])
  (hvs : Holds f vs xs)
include hat hvs

theorem ticks_call (t' : String) :
    Ticks (run p b A ⟨q, f, t⟩) t
      (fun limits => call p limits g xs >>= fun x => define b f d x >>= fun f' =>
        run p b A ⟨q.plus 1, f', t'⟩ limits) t := by
  refine (ticks_inst t' hat).congr fun limits steps depth => ?_
  rw [exec, readAll_ok hvs, pure_bind, bind_assoc]

theorem reaches_call {x : Value} (hd : d < f.values.size)
    (h : Leads (fun limits => call p limits g xs) t (ending (.ok x)) t') :
    Reaches p b A ⟨q, f, t⟩ ⟨q.plus 1, f.withValue d x, t'⟩ := by
  refine ((ticks_call hat hvs t').leads.trans (h.bind _)).trans (.of_eq fun limits steps depth => ?_)
  simp only [ending, pure_bind, define_ok x hd]

theorem ends_call {e : RuntimeError} (h : Leads (fun limits => call p limits g xs) t (ending (.error e)) t') :
    Ends p b A ⟨q, f, t⟩ (.error e) t' :=
  ((ticks_call hat hvs t').leads.trans (h.bind _)).trans (.of_eq fun _ _ _ => rfl)

theorem exceeds_call {n : Nat} (h : Exceeds (fun limits => call p limits g xs) t (n - 1)) :
    Exceeds (run p b A ⟨q, f, t⟩) t n :=
  ((ticks_call hat hvs t).exceeds (h.bind _)).mono (by omega)

end Call

end Instructions

/-! ## Terminators -/

section Terminators

variable {q : Point} {f : Frame} {t : String}

theorem ticks_exit {o : Terminator} (hat : ClosedAt b q o) :
    Ticks (run p b A ⟨q, f, t⟩) t
      (fun limits => exit b f q.region (some o) >>= fun e =>
        match e with
        | .jump target => run p b A ⟨⟨target, 0⟩, f, t⟩ limits
        | .done x => pure x) t := by
  intro limits steps depth
  obtain ⟨g, hg, hi, ho⟩ := hat
  rw [run, run_exit hg (Array.getElem?_eq_none (Nat.le_of_eq hi)), bind_apply, ho]
  by_cases hs : steps < limits.maxSteps
  · rw [if_pos hs, tick_ok limits (m := printing steps depth t) hs]
    rfl
  · rw [if_neg hs, tick_error limits (m := printing steps depth t) (Nat.le_of_not_lt hs)]
    rfl

theorem step_branch {target : RegionId} (hat : ClosedAt b q (.branch target)) :
    Step p b A ⟨q, f, t⟩ ⟨⟨target, 0⟩, f, t⟩ :=
  (ticks_exit hat).congr fun _ _ _ => rfl

theorem step_branchIf {v : ValueId} {yes no : RegionId} {c : Float} (hat : ClosedAt b q (.branchIf v yes no))
    (hc : f.values[v]? = some (.number c)) :
    Step p b A ⟨q, f, t⟩ ⟨⟨if c == 0 then no else yes, 0⟩, f, t⟩ := by
  refine (ticks_exit hat).congr fun limits steps depth => ?_
  rw [exit, read_ok hc]
  rfl

theorem ends_ret {v : ValueId} {x : Value} (hat : ClosedAt b q (.ret v)) (hx : f.values[v]? = some x) :
    Ends p b A ⟨q, f, t⟩ (.ok x) t := by
  refine ((ticks_exit hat).congr fun limits steps depth => ?_).leads
  rw [exit, read_ok hx]
  rfl

end Terminators

end Config

end Machine

end Funclet
