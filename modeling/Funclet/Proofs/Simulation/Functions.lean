import Funclet.Proofs.Simulation.Statements

/-!
# Calls do what functions say

* `params_reaches` : the parameters are put into their slots;
* `BodyCode.sim` : the run of a body from its start does what the evaluation of its function says;
* `Implements p link fs` : the program `p` has bodies for the functions `fs`, under the numbers that `link` says;
* `Implements.callSim` : in such a program every call does what the functions say, by induction on the bound.
-/

namespace Funclet

open Evaluation Machine

section Bodies

variable {M : String → Prop} {p : Program} {b : Body} {A : List Value} {link : Link} {call : Calls} {n : Nat}

/-- The frame that a body starts with. -/
theorem matches_initial (b : Body) (t : String) :
    Matches b ⟨0, 0⟩ [[]] ⟨0, 0⟩ ⟨[[]], t⟩ ⟨⟨0, 0⟩, .initial b, t⟩ where
  point := rfl
  text := rfl
  values := Array.size_replicate
  slots := Array.size_replicate
  layout := ⟨List.nodup_nil, nofun⟩
  cells := .cons .nil .nil

/-- The parameters from the one with the index `i` on are put into their slots. -/
theorem params_reaches {names : List String} {xs : List Value} (hlen : names.length = xs.length) {i : Nat}
    (hargs : ∀ k, A[i + k]? = xs[k]?) {q : Point} {F : List (String × SlotId)}
    {G : List (String × Value)} {t : String} {C : Config} (hat : CodeAt b q (paramCode i names))
    (hc : Counts.Le ⟨i + names.length, i + names.length⟩ b.counts) (hm : Matches b q [F] ⟨i, i⟩ ⟨[G], t⟩ C) :
    ∃ C', C.Reaches p b A C' ∧
      Matches b (q.plus (2 * names.length)) [(names.zipIdx i).reverse ++ F] ⟨i + names.length, i + names.length⟩
        ⟨[(names.zip xs).reverse ++ G], t⟩ C' := by
  induction names generalizing i xs q F G C with
  | nil => exact ⟨C, Leads.refl _ _, hm⟩
  | cons name names ih =>
    cases xs with
    | nil => cases hlen
    | cons x xs =>
      obtain ⟨hparam, hrest⟩ := CodeAt.cons hat
      obtain ⟨hstore, hrest⟩ := CodeAt.cons hrest
      have hlast : i + 1 + names.length = i + (names.length + 1) := by omega
      rw [List.length_cons, ← hlast] at hc
      have hc₁ : Counts.Le ⟨i + 1, i + 1⟩ b.counts :=
        ⟨Nat.le_trans (Nat.le_add_right _ _) hc.values, Nat.le_trans (Nat.le_add_right _ _) hc.slots⟩
      have hc₀ : Counts.Le (Counts.next ⟨i, i⟩) b.counts := ⟨hc₁.values, Nat.le_of_succ_le hc₁.slots⟩
      obtain ⟨C₁, hstep, h₁, hx⟩ := hm.step_define hc₀ (Config.step_param hparam (hargs 0) (hm.value_lt hc₀))
      obtain ⟨C₂, hstep₂, h₂⟩ := h₁.state.step_declare (p := p) (A := A) hc₁ name hstore hx
      have hargs' : ∀ k, A[i + 1 + k]? = xs[k]? := by
        intro k
        have hk := hargs (k + 1)
        rwa [Nat.add_comm k 1, ← Nat.add_assoc, Nat.add_comm 1 k] at hk
      obtain ⟨C₃, hreach₃, h₃⟩ := ih (Nat.succ.inj hlen) hargs' hrest hc h₂.state
      refine ⟨C₃, hstep.reaches.trans (hstep₂.reaches.trans hreach₃), ?_⟩
      have hq : q.plus (2 * (names.length + 1)) = ((q.plus 1).plus 1).plus (2 * names.length) := by
        rw [Point.plus_plus, Point.plus_plus]
        congr 1
        omega
      rw [List.length_cons, ← hlast, hq, List.zipIdx_cons, List.zip_cons_cons, List.reverse_cons, List.reverse_cons,
        List.append_assoc, List.append_assoc]
      exact h₃

/-- The run of a body does what the evaluation of its function says. -/
theorem BodyCode.sim (hcall : CallSim M p link call n) {f : Function} (h : BodyCode link f b) {xs : List Value}
    (hlen : f.proto.arity = xs.length) (t : String) :
    Answers M (fun limits => Machine.run p b xs limits ⟨0, 0⟩ (.initial b)) t n
      (evalFunction call n f xs t) := by
  obtain ⟨q, c, v, hst, hclosed, hc⟩ := h.body
  have hargs : ∀ k, xs[0 + k]? = xs[k]? := by
    intro k
    rw [Nat.zero_add]
  have hc₀ : Counts.Le ⟨0 + f.proto.arity, 0 + f.proto.arity⟩ b.counts := by
    rw [Nat.zero_add]
    exact hst.le.trans hc
  have hlen' : f.proto.params.length = xs.length := hlen
  obtain ⟨C, hreach, hm⟩ := params_reaches (p := p) hlen' hargs h.paramsAt hc₀ (matches_initial b t)
  simp only [List.append_nil, Point.plus, Nat.zero_add] at hm
  have hsim := Sim.of_reaches hreach (hst.sim hcall hc hm)
  unfold evalFunction
  cases hr : evalStmt call n f.body ⟨[(f.proto.params.zip xs).reverse], t⟩ with
  | ok flow σ =>
    rw [hr] at hsim
    obtain ⟨C', hC', hflow⟩ := hsim
    cases flow with
    | next x =>
      obtain ⟨hm', hx⟩ := hflow
      rw [hm'.config] at hC'
      exact Leads.trans hC' (Config.ends_ret hclosed hx)
    | again =>
      obtain ⟨target, htarget, -⟩ := hflow
      cases htarget
    | ret x =>
      obtain ⟨w, hw, hx, htext⟩ := hflow
      have hends := Leads.trans hC' (Config.ends_ret hw hx)
      rw [htext] at hends
      exact hends
  | error e σ =>
    rw [hr] at hsim
    cases e <;> exact hsim

end Bodies

/-! ## Programs -/

/-- The program has a body for each of the functions, and none for other names. -/
structure Implements (p : Program) (link : Link) (fs : List Function) : Prop where
  defined : ∀ name k g f, link name k g → fs.find? (fun f => f.proto.name = name) = some f →
    f.proto.arity = k ∧ ∃ b, p.body? g = some b ∧ BodyCode link f b
  undefined : ∀ name k g, link name k g → fs.find? (fun f => f.proto.name = name) = none →
    p.body? g = none ∧ p.nameOf g = name

/-- The names that can be called and are not those of functions. -/
def Missing (link : Link) (fs : List Function) (name : String) : Prop :=
  (∃ k g, link name k g) ∧ fs.find? (fun f => f.proto.name = name) = none

section Programs

variable {p : Program} {link : Link} {fs : List Function}

theorem Implements.answers_undefined (h : Implements p link fs) {name : String} {k : Nat} {g : FunctionId}
    (hlink : link name k g) (hf : fs.find? (fun f => f.proto.name = name) = none) {xs : List Value} {t : String}
    {n : Nat} :
    Answers (Missing link fs) (fun limits => Machine.call p limits g xs) t n
      (.error (.fault (.undefinedFunction name)) t) := by
  obtain ⟨hb, hname⟩ := h.undefined name k g hlink hf
  refine ⟨⟨⟨k, g, hlink⟩, hf⟩, Leads.of_eq fun limits steps depth => ?_⟩
  rw [call_apply, hb, hname]
  rfl

/-- A call does what the run of the body does. -/
theorem Answers.call {M : String → Prop} {b : Body} {g : FunctionId} {xs : List Value} {t : String} {n : Nat}
    {r : EStateM.Result Stop String Value}
    (h : Answers M (fun limits => Machine.run p b xs limits ⟨0, 0⟩ (.initial b)) t n r) (hb : p.body? g = some b)
    (hn : b.params = xs.length) : Answers M (fun limits => Machine.call p limits g xs) t n r := by
  cases r with
  | ok y t' => exact Leads.call hb hn h
  | error e t' =>
    cases e with
    | fault e => exact ⟨h.1, Leads.call hb hn h.2⟩
    | timeout => exact Exceeds.call hb hn h
    | stuck => exact h

/-- Every call does what the functions say. -/
theorem Implements.callSim (h : Implements p link fs) (n : Nat) :
    CallSim (Missing link fs) p link (callFunction fs n) n := by
  induction n with
  | zero =>
    intro name xs g t hlink
    rw [callFunction]
    cases hf : fs.find? fun f => f.proto.name = name with
    | none => exact h.answers_undefined hlink hf
    | some f =>
      obtain ⟨harity, -⟩ := h.defined name _ g f hlink hf
      dsimp only
      rw [if_pos harity]
      exact Exceeds.zero _ _
  | succ n ih =>
    intro name xs g t hlink
    rw [callFunction]
    cases hf : fs.find? fun f => f.proto.name = name with
    | none => exact h.answers_undefined hlink hf
    | some f =>
      obtain ⟨harity, b, hb, hcode⟩ := h.defined name _ g f hlink hf
      dsimp only
      rw [if_pos harity]
      refine (hcode.sim ih harity t).call hb ?_
      rw [hcode.params, harity]

end Programs

end Funclet
