import Funclet.Proofs.Accepted
import Funclet.Proofs.Numbers

/-!
# Compiled programs do what their source texts say

* `Leads.limited_or`, `Leads.eventually` : what a simulation says of the run of a whole program;
* `compile_answers` : calls of the entry function do what the functions that have been read say;
* `run_evaluates` : programs end as the evaluation of their source texts does;
* `runEntry_number_or_fault` : programs of strict sessions end with a number, divide by zero, or are stopped by a
  limit.
-/

namespace Funclet

open Evaluation Machine

/-! ## Outcomes of simulations -/

namespace Machine

variable {α : Type} {x y : Limits → Exec α} {t t' : String}

theorem allow_zero (limits : Limits) : Allow limits 0 0 0 0 := ⟨Nat.zero_le _, Nat.zero_le _⟩

theorem Leads.limited_or (h : Leads x t y t') (limits : Limits) :
    Limited (x limits (printing 0 0 t)) ∨ ∃ s, x limits (printing 0 0 t) = y limits (printing s 0 t') := by
  obtain ⟨s, d, h⟩ := h
  obtain ⟨hfits, hlimited⟩ := h limits 0 0 (allow_zero limits)
  by_cases hall : Allow limits 0 0 s d
  · exact Or.inr ⟨0 + s, hfits hall⟩
  · exact Or.inl (hlimited hall)

theorem Leads.eventually (h : Leads x t y t') :
    ∃ s d, ∀ limits : Limits, s ≤ limits.maxSteps → d ≤ limits.maxCallDepth →
      x limits (printing 0 0 t) = y limits (printing s 0 t') := by
  obtain ⟨s, d, h⟩ := h
  refine ⟨s, d, fun limits hs hd => ?_⟩
  have hfits := (h limits 0 0 (allow_zero limits)).1
  simp only [Allow, Nat.zero_add] at hfits
  exact hfits ⟨hs, hd⟩

end Machine

section Answers

variable {M : String → Prop} {x : Limits → Exec Value} {t t' : String} {n : Nat}

theorem Answers.leads {outcome : Except RuntimeError Value} (h : Answers M x t n (result outcome t')) :
    Leads x t (ending outcome) t' := by
  cases outcome with
  | ok y => exact h
  | error e => exact h.2

theorem Answers.blame {e : RuntimeError} (h : Answers M x t n (result (.error e) t')) : Blame M e := h.1

/-- An evaluation with a bound above the limit on steps has an outcome, unless the run is stopped by a limit. -/
theorem Answers.limited_or {r : EStateM.Result Stop String Value} (h : Answers M x t n r) (limits : Limits)
    (hn : limits.maxSteps < n) : Limited (x limits (printing 0 0 t)) ∨ ∃ outcome t', r = result outcome t' := by
  cases r with
  | ok y t' => exact Or.inr ⟨.ok y, t', rfl⟩
  | error e t' =>
    cases e with
    | fault e => exact Or.inr ⟨.error e, t', rfl⟩
    | timeout => exact Or.inl (h limits 0 0 (allow_zero limits) (by omega))
    | stuck => exact False.elim h

end Answers

/-! ## Programs -/

section Programs

variable {settings : Settings} {source : String} (haccepted : (compile settings source).diagnostics = [])
  {id : FunctionId} (hentry : (compile settings source).program.entry = some id)
include haccepted hentry

theorem compile_entry : ∃ b, (compile settings source).program.body? id = some b := by
  obtain ⟨s, done, hs, -, hprogram, -⟩ := compile_accepted haccepted
  rw [hprogram] at hentry ⊢
  obtain ⟨b, hb, -⟩ := hs.entry hentry
  exact ⟨b, hb⟩

variable {b : Body} (hb : (compile settings source).program.body? id = some b) {args : List Float}
  (hargs : args.length = b.params)
include hb hargs

/-- The program calls its entry function as the functions that have been read say. -/
theorem compile_answers :
    ∃ M, (settings.strictForwardRefs = true → ∀ name, ¬ M name) ∧ ∀ n,
      Answers M (fun limits => Machine.call (compile settings source).program limits id (args.map .number)) "" (n - 1)
        (callFunction (Grammar.readSource settings.textEscapes source).functions n settings.entry (args.map .number)
          "") := by
  obtain ⟨s, done, hs, hfst, hprogram, hpending⟩ := compile_accepted haccepted
  rw [hprogram] at hentry hb ⊢
  obtain ⟨b', hb', hknows⟩ := hs.entry hentry
  obtain rfl : b' = b := Option.some.inj (hb'.symm.trans hb)
  refine ⟨Missing s.registry.Knows (done.map Prod.fst), fun hstrict => hs.not_missing (hpending hstrict), fun n => ?_⟩
  rw [← hargs, ← List.length_map Value.number] at hknows
  rw [← hfst]
  exact (hs.implements settings.entry).callSim n settings.entry _ id "" hknows

/-- A call of the entry function that is not stopped by a limit ends as the evaluation does. -/
theorem compile_outcome (limits : Limits) :
    Limited (Machine.call (compile settings source).program limits id (args.map .number) (printing 0 0 "")) ∨
    ∃ outcome printed s,
      Evaluates (Grammar.readSource settings.textEscapes source).functions settings.entry args outcome printed ∧
      Machine.call (compile settings source).program limits id (args.map .number) (printing 0 0 "") =
        ending (outcome.map .number) limits (printing s 0 printed) ∧
      ∀ e, outcome = .error e →
        e = .divisionByZero ∨ settings.strictForwardRefs = false ∧ ∃ name, e = .undefinedFunction name := by
  obtain ⟨M, hM, hanswers⟩ := compile_answers haccepted hentry hb hargs
  -- answers are about one step less than the bound, and that has to be above the limit
  have hanswer := hanswers (limits.maxSteps + 2)
  rcases hanswer.limited_or limits (by omega) with hlimited | ⟨outcome, printed, hr⟩
  · exact Or.inl hlimited
  obtain ⟨outcome, rfl, hsober⟩ := exists_outcome (fun f hf => (Grammar.produced_of_readSource hf).textless) hr
  rw [hr] at hanswer
  rcases hanswer.leads.limited_or limits with hlimited | ⟨s, hrun⟩
  · exact Or.inl hlimited
  refine Or.inr ⟨outcome, printed, s, ⟨_, hr⟩, hrun, ?_⟩
  rintro e rfl
  have hblame := hanswer.blame
  cases e with
  | textInArithmetic use => exact absurd rfl (hsober use)
  | divisionByZero => exact Or.inl rfl
  | undefinedFunction name =>
    refine Or.inr ⟨?_, name, rfl⟩
    rw [← Bool.not_eq_true]
    exact fun hstrict => hM hstrict name hblame
  | _ => exact False.elim hblame

end Programs

/-- The result of a run that ends with the given outcome and has printed `printed`. -/
def Compilation.ended (outcome : Except RuntimeError Float) (printed : String) : Except Failure Value × Output :=
  (match outcome with
    | .ok x => .ok (.number x)
    | .error e => .error (.runtime e), ⟨printed, none, false⟩)

section Run

variable {c : Compilation} (hdiag : c.diagnostics = []) {id : FunctionId} (hentry : c.program.entry = some id)
  {b : Body} (hb : c.program.body? id = some b) {limits : Limits} {args : List Float}
include hdiag hentry hb

/-- If nothing is wrong with the source text, a run of the program is a call of its entry function. -/
theorem Compilation.run_eq_call : c.run limits args none =
    match Machine.call c.program limits id (args.map .number) (printing 0 0 "") with
    | .ok v m => (.ok v, m.output)
    | .error e m => (.error (.runtime e), m.output) := by
  have hsome : ¬ c.program.entryBody?.isNone := by
    rw [Program.entryBody?, hentry, Option.bind_some, hb]
    exact Bool.false_ne_true
  unfold Compilation.run
  dsimp only
  rw [if_neg (not_not.mpr hdiag), if_neg hsome]
  unfold Machine.runEntry
  rw [hentry]
  rfl

theorem Compilation.run_limited (h : Limited (Machine.call c.program limits id (args.map .number) (printing 0 0 ""))) :
    ∃ e, (c.run limits args none).1 = .error (.runtime e) ∧ e.isLimit := by
  obtain ⟨e, m, hrun, he⟩ := h
  refine ⟨e, ?_, he⟩
  rw [run_eq_call hdiag hentry hb, hrun]

theorem Compilation.run_ended {outcome : Except RuntimeError Float} {s : Nat} {printed : String}
    (h : Machine.call c.program limits id (args.map .number) (printing 0 0 "") =
      ending (outcome.map .number) limits (printing s 0 printed)) :
    c.run limits args none = ended outcome printed := by
  rw [run_eq_call hdiag hentry hb, h]
  cases outcome <;> rfl

end Run

/-- A program that is not stopped by a limit ends as the evaluation of its source text does, and it does so whenever the
limits allow for it. -/
theorem run_evaluates (settings : Settings) (source : String) {b : Body} (args : List Float)
    (haccepted : (compile settings source).diagnostics = [])
    (hentry : (compile settings source).program.entryBody? = some b) (hargs : args.length = b.params) :
    let functions := (Grammar.readSource settings.textEscapes source).functions
    (∀ limits, (∀ e, ((compile settings source).run limits args none).1 = .error (.runtime e) → e.isLimit = false) →
      ∃ outcome printed, Evaluates functions settings.entry args outcome printed ∧
        (compile settings source).run limits args none = Compilation.ended outcome printed ∧
        ∀ e, outcome = .error e →
          e = .divisionByZero ∨ settings.strictForwardRefs = false ∧ ∃ name, e = .undefinedFunction name) ∧
    ∀ outcome printed, Evaluates functions settings.entry args outcome printed →
      ∃ steps depth, ∀ limits : Limits, steps ≤ limits.maxSteps → depth ≤ limits.maxCallDepth →
        (compile settings source).run limits args none = Compilation.ended outcome printed := by
  intro functions
  obtain ⟨id, hid, hb⟩ := Option.bind_eq_some_iff.mp hentry
  constructor
  · intro limits hlimits
    rcases compile_outcome haccepted hid hb hargs limits with hlimited | ⟨outcome, printed, s, heval, hrun, he⟩
    · obtain ⟨e, herror, he⟩ := Compilation.run_limited haccepted hid hb hlimited
      rw [hlimits e herror] at he
      cases he
    · exact ⟨outcome, printed, heval, Compilation.run_ended haccepted hid hb hrun, he⟩
  · rintro outcome printed ⟨n, hr⟩
    obtain ⟨M, -, hanswers⟩ := compile_answers haccepted hid hb hargs
    have hanswer := hanswers n
    rw [hr] at hanswer
    obtain ⟨s, d, hrun⟩ := hanswer.leads.eventually
    exact ⟨s, d, fun limits hs hd => Compilation.run_ended haccepted hid hb (hrun limits hs hd)⟩

/-- A loop that calls a function which is defined behind it. -/
theorem run_evaluates_loop :
    let source := "FUNC main(n) \x7b VAR s = 0 WHILE n DO \x7b s := s + twice(n) n := n - 1 \x7d DONE " ++
      "PRINT \"sum \", s RETURN s \x7d FUNC twice(x) RETURN x + x"
    Evaluates (Grammar.readSource true source).functions "main" [2] (.ok 6) "sum 6\n" ∧
      ∃ steps depth, ∀ limits : Limits, steps ≤ limits.maxSteps → depth ≤ limits.maxCallDepth →
        (compile {} source).run limits [2] none = Compilation.ended (.ok 6) "sum 6\n" := by
  intro source
  have haccepted : (compile {} source).diagnostics = [] := by
    decide +kernel +zetaReduce
  have hparams : (compile {} source).program.entryBody?.map Body.params = some 1 := by
    decide +kernel +zetaReduce
  have hvalue : ((compile {} source).run {} [2] none).1.toOption = some (.number 6) := by
    decide +kernel +zetaReduce
  have htext : ((compile {} source).run {} [2] none).2.text = "sum 6\n" := by
    decide +kernel +zetaReduce
  obtain ⟨b, hentry, hb⟩ := Option.map_eq_some_iff.mp hparams
  obtain ⟨hends, heventually⟩ := run_evaluates {} source [2] haccepted hentry hb.symm
  obtain ⟨outcome, printed, heval, hrun, -⟩ := hends {} fun e he => by
    rw [he] at hvalue
    cases hvalue
  rw [hrun] at hvalue htext
  obtain rfl : printed = "sum 6\n" := htext
  cases outcome with
  | error e => cases hvalue
  | ok x =>
    obtain rfl : x = 6 := Value.number.inj (Option.some.inj hvalue)
    exact ⟨heval, heventually _ _ heval⟩

/-- In a strict session, an accepted program that is given numbers gives back a number, divides by zero, or is stopped
by a limit. -/
theorem runEntry_number_or_fault (settings : Settings) (source : String) {id : FunctionId}
    (hstrict : settings.strictForwardRefs = true) (haccepted : (compile settings source).diagnostics = [])
    (hentry : (compile settings source).program.entry = some id) :
    ∃ b, (compile settings source).program.body? id = some b ∧
      ∀ args : List Float, args.length = b.params → ∀ limits,
        (∃ x m, Machine.runEntry (compile settings source).program limits settings.entry (args.map .number)
          (.initial none) = .ok (.number x) m) ∨
        ∃ e m, Machine.runEntry (compile settings source).program limits settings.entry (args.map .number)
            (.initial none) = .error e m ∧
          (e = .divisionByZero ∨ (∃ k, e = .stackOverflow k) ∨ ∃ k, e = .stepLimit k) := by
  obtain ⟨b, hb⟩ := compile_entry haccepted hentry
  refine ⟨b, hb, fun args hargs limits => ?_⟩
  have hcall : Machine.runEntry (compile settings source).program limits settings.entry (args.map .number)
      (.initial none) =
        Machine.call (compile settings source).program limits id (args.map .number) (printing 0 0 "") := by
    unfold Machine.runEntry
    rw [hentry]
    rfl
  rw [hcall]
  rcases compile_outcome haccepted hentry hb hargs limits with ⟨e, m, hrun, he⟩ | ⟨outcome, printed, s, -, hrun, he⟩
  · refine Or.inr ⟨e, m, hrun, Or.inr ?_⟩
    cases e with
    | stackOverflow k => exact Or.inl ⟨k, rfl⟩
    | stepLimit k => exact Or.inr ⟨k, rfl⟩
    | _ => cases he
  rw [hrun]
  cases outcome with
  | ok x => exact Or.inl ⟨x, _, rfl⟩
  | error e =>
    refine Or.inr ⟨e, _, rfl, Or.inl ?_⟩
    rcases he e rfl with he | ⟨hlax, -⟩
    · exact he
    · rw [hstrict] at hlax
      cases hlax

/-- The arguments decide whether there is a number. -/
theorem runEntry_number_or_fault_division :
    let p := (compile {} "FUNC main(a, b) RETURN a / b").program
    (∃ x m, Machine.runEntry p {} "main" [.number 6, .number 3] (.initial none) = .ok (.number x) m) ∧
      ∃ e m, Machine.runEntry p {} "main" [.number 6, .number 0] (.initial none) = .error e m ∧
        (e = .divisionByZero ∨ (∃ k, e = .stackOverflow k) ∨ ∃ k, e = .stepLimit k) := by
  intro p
  have hentry : p.entry = some 0 := by decide +kernel +zetaReduce
  have hparams : (p.body? 0).map Body.params = some 2 := by decide +kernel +zetaReduce
  have hok : (Machine.runEntry p {} "main" [.number 6, .number 3] (.initial none)) matches .ok _ _ := by
    decide +kernel +zetaReduce
  have herror : (Machine.runEntry p {} "main" [.number 6, .number 0] (.initial none)) matches .error _ _ := by
    decide +kernel +zetaReduce
  obtain ⟨b, hb, hsafe⟩ := runEntry_number_or_fault {} "FUNC main(a, b) RETURN a / b" rfl (by decide +kernel) hentry
  rw [hb] at hparams
  have hlen : 2 = b.params := (Option.some.inj hparams).symm
  constructor
  · rcases hsafe [6, 3] hlen {} with h | ⟨e, m, h, -⟩
    · exact h
    · rw [show Machine.runEntry p {} "main" [.number 6, .number 3] (.initial none) = _ from h] at hok
      cases hok
  · rcases hsafe [6, 0] hlen {} with ⟨x, m, h⟩ | h
    · rw [show Machine.runEntry p {} "main" [.number 6, .number 0] (.initial none) = _ from h] at herror
      cases herror
    · exact h

end Funclet
