import Funclet.Proofs.Lowering.Code
import Funclet.Proofs.Machine.Costs
import Funclet.Proofs.Simulation.Cells

/-!
# Runs that follow evaluations

* `Matches b q Γ c σ C` : the run of `b` is at the point `q`, and its state `C` stands for the evaluation state `σ`;
* `Sim n C r post` : from `C` on, the run does what the evaluation result `r` says; it composes (`Sim.bind`);
* `Answers`, `CallSim` : the same for functions and their calls.

An evaluation that reaches its bound `n` says nothing about the outcome, but the run then takes more than `n` steps.
-/

namespace Funclet

open Evaluation Machine

/-- What the run of an evaluation has to start from and to come back to. -/
structure Matches (b : Body) (q : Point) (Γ : Frames SlotId) (c : Counts) (σ : State) (C : Config) : Prop where
  point : C.point = q
  text : C.text = σ.printed
  values : C.frame.values.size = b.valueCount
  slots : C.frame.slots.size = b.slots.size
  layout : Γ.Layout c.slots
  cells : Cells C.frame.slots Γ σ.env

def Keeps (n : Nat) (C C' : Config) : Prop := ∀ v < n, C'.frame.values[v]? = C.frame.values[v]?

theorem Keeps.refl (n : Nat) (C : Config) : Keeps n C C := fun _ _ => rfl

theorem Keeps.trans {m n : Nat} {C C' C'' : Config} (h : Keeps m C C') (hn : m ≤ n) (h' : Keeps n C' C'') :
    Keeps m C C'' :=
  fun v hv => (h' v (Nat.lt_of_lt_of_le hv hn)).trans (h v hv)

theorem inScope_apply {α : Type} (part : Eval α) (σ : State) :
    inScope part σ = match part { σ with env := [] :: σ.env } with
      | .ok a σ' => .ok a { σ' with env := σ'.env.tail }
      | .error e σ' => .error e σ' := by
  rw [inScope, bind_apply]
  change (part >>= _) _ = _
  rw [bind_apply]
  cases part { σ with env := [] :: σ.env } <;> rfl

/-! ## Simulation -/

/-- The errors that a run of a program can end with, where `M` says which functions are called and have no body. -/
def Blame (M : String → Prop) : RuntimeError → Prop
  | .divisionByZero => True
  | .undefinedFunction name => M name
  | .textInArithmetic _ => True
  | _ => False

section Sim

variable (M : String → Prop) (p : Program) (b : Body) (A : List Value)

/-- From `C` on, the run does what the evaluation result says: it reaches a state as described, or fails alike, or takes
more than `n` steps. -/
def Sim {α : Type} (n : Nat) (C : Config) (r : EStateM.Result Stop State α) (post : α → State → Config → Prop) : Prop :=
  match r with
  | .ok a σ => ∃ C', C.Reaches p b A C' ∧ post a σ C'
  | .error (.fault e) σ => Blame M e ∧ C.Ends p b A (.error e) σ.printed
  | .error .timeout _ => Exceeds (C.run p b A) C.text n
  | .error .stuck _ => False

variable {M p b A} {α β : Type} {n : Nat} {C C' : Config}

theorem Sim.pure {a : α} {σ : State} {P : α → State → Config → Prop} (h : P a σ C) :
    Sim M p b A n C (.ok a σ) P :=
  ⟨C, Leads.refl _ _, h⟩

theorem Sim.mono {r : EStateM.Result Stop State α} {P Q : α → State → Config → Prop}
    (h : Sim M p b A n C r P) (hPQ : ∀ a σ C', P a σ C' → Q a σ C') : Sim M p b A n C r Q := by
  cases r with
  | ok a σ =>
    obtain ⟨C', hC', hp⟩ := h
    exact ⟨C', hC', hPQ a σ C' hp⟩
  | error e σ => cases e <;> exact h

theorem Sim.of_le {r : EStateM.Result Stop State α} {P : α → State → Config → Prop} (h : Sim M p b A n C r P)
    {k : Nat} (hk : k ≤ n) : Sim M p b A k C r P := by
  cases r with
  | ok a σ => exact h
  | error e σ =>
    cases e with
    | timeout => exact Exceeds.mono h hk
    | fault e => exact h
    | stuck => exact h

theorem Sim.of_reaches {r : EStateM.Result Stop State α} {P : α → State → Config → Prop}
    (hC : C.Reaches p b A C') (h : Sim M p b A n C' r P) : Sim M p b A n C r P := by
  cases r with
  | ok a σ =>
    obtain ⟨C'', hC'', hp⟩ := h
    exact ⟨C'', hC.trans hC'', hp⟩
  | error e σ =>
    cases e with
    | fault e => exact ⟨h.1, Leads.trans hC h.2⟩
    | timeout => exact Exceeds.of_leads hC h
    | stuck => exact h

/-- A step of the run makes up for a step of the bound. -/
theorem Sim.of_step {r : EStateM.Result Stop State α} {P : α → State → Config → Prop}
    (hC : C.Step p b A C') (h : Sim M p b A n C' r P) : Sim M p b A (n + 1) C r P := by
  cases r with
  | ok a σ => exact Sim.of_reaches hC.reaches h
  | error e σ =>
    cases e with
    | fault e => exact ⟨h.1, Leads.trans hC.reaches h.2⟩
    | timeout => exact Ticks.exceeds hC h
    | stuck => exact h

theorem Sim.bind {x : Eval α} {f : α → Eval β} {σ : State} {P : α → State → Config → Prop}
    {Q : β → State → Config → Prop} (h : Sim M p b A n C (x σ) P)
    (hf : ∀ a σ' C', P a σ' C' → Sim M p b A n C' (f a σ') Q) : Sim M p b A n C ((x >>= f) σ) Q := by
  rw [bind_apply]
  cases hx : x σ with
  | ok a σ' =>
    rw [hx] at h
    obtain ⟨C', hC', hp⟩ := h
    exact .of_reaches hC' (hf a σ' C' hp)
  | error e σ' =>
    rw [hx] at h
    cases e <;> exact h

theorem Sim.inScope {part : Eval α} {σ : State} {P Q : α → State → Config → Prop}
    (h : Sim M p b A n C (part { σ with env := [] :: σ.env }) P)
    (hPQ : ∀ a σ' C', P a σ' C' → Q a { σ' with env := σ'.env.tail } C') :
    Sim M p b A n C (Evaluation.inScope part σ) Q := by
  rw [inScope_apply]
  cases hx : part { σ with env := [] :: σ.env } with
  | ok a σ' =>
    rw [hx] at h
    obtain ⟨C', hC', hp⟩ := h
    exact ⟨C', hC', hPQ a σ' C' hp⟩
  | error e σ' =>
    rw [hx] at h
    cases e <;> exact h

end Sim

/-! ## Calls -/

/-- The run of a function does what the evaluation result says: it ends alike, or takes more than `n` steps. -/
def Answers (M : String → Prop) (x : Limits → Exec Value) (t : String) (n : Nat) :
    EStateM.Result Stop String Value → Prop
  | .ok y t' => Leads x t (ending (.ok y)) t'
  | .error (.fault e) t' => Blame M e ∧ Leads x t (ending (.error e)) t'
  | .error .timeout _ => Exceeds x t n
  | .error .stuck _ => False

/-- Calls do what the functions that are meant say. -/
def CallSim (M : String → Prop) (p : Program) (link : Link) (call : Calls) (n : Nat) : Prop :=
  ∀ name xs g t, link name xs.length g →
    Answers M (fun limits => Machine.call p limits g xs) t (n - 1) (call name xs t)

end Funclet
