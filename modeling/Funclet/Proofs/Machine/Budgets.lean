import Funclet.Compiler
import Funclet.Proofs.Machine.Halting

/-!
# What the limits of a run change

* `Output.Grows` : nothing that has been printed is taken back;
* `step_relaxed` : with higher limits a step does the same, unless a limit has stopped it before it did anything;
* `call_relaxed` : so limits only cut runs short;
* `onTop before m` : the machine `m` as it is after other runs, which have left `before`;
* `step_onTop` : those runs show in nothing but the steps that are left;
* `call_reused` : so a machine can be used again after any calls.
-/

namespace Funclet

/-! ## Output -/

namespace Output

def Grows (o o' : Output) : Prop := ∃ rest, o'.text = o.text ++ rest

theorem Grows.refl (o : Output) : Grows o o := ⟨"", String.append_empty.symm⟩

theorem Grows.trans {o o' o'' : Output} (h : Grows o o') (h' : Grows o' o'') : Grows o o'' := by
  obtain ⟨rest, hrest⟩ := h
  obtain ⟨rest', hrest'⟩ := h'
  exact ⟨rest ++ rest', by rw [hrest', hrest, String.append_assoc]⟩

theorem grows_fill (cs : List Char) (o : Output) (room : Nat) : Grows o (o.fill room cs) := by
  induction cs generalizing o room with
  | nil => exact .refl o
  | cons c cs ih =>
    rw [fill]
    split
    · have hpush : Grows o { o with text := o.text.push c } := ⟨String.singleton c, String.append_singleton.symm⟩
      exact hpush.trans (ih _ _)
    · exact .refl o

theorem Grows.write {o₀ o : Output} (h : Grows o₀ o) (s : String) : Grows o₀ (o.write s).2 := by
  refine h.trans ?_
  unfold Output.write
  split
  · exact ⟨s, rfl⟩
  · split
    · exact ⟨s, rfl⟩
    · exact grows_fill _ o _

end Output

namespace Machine

variable {α : Type} {p : Program} {limits limits' : Limits}

/-! What writing does not change, no run changes. -/

section Output

variable {P : Output → Prop} (hwrite : ∀ o s, P o → P (o.write s).2) {m : Machine} (hm : P m.output)
include hwrite hm

theorem output_printLine (line : String) : P (machineOf (printLine line m)).output := by
  have hline := hwrite m.output line hm
  simp only [printLine]
  cases hw : m.output.write line with
  | mk fits output =>
    rw [hw] at hline
    cases fits with
    | false => exact hline
    | true =>
      have hend := hwrite output "\n" hline
      dsimp only
      cases hw' : output.write "\n" with
      | mk fits' output' =>
        rw [hw'] at hend
        cases fits' <;> exact hend

theorem output_perform {n : Nat} (act : Action n) : P (machineOf (act.perform p limits m)).output := by
  cases act with
  | move s hs => exact hm
  | fail e he => exact hm
  | print line s hs =>
    have hp := output_printLine hwrite hm line
    simp only [Action.perform, bind_apply]
    cases h : printLine line m with
    | ok _ m' => rwa [h] at hp
    | error e m' => rwa [h] at hp
  | enter id args waiting hw =>
    simp only [Action.perform, bind_apply]
    rcases enter_cases p limits id args m with ⟨e, h, -⟩ | ⟨-, a, h, -⟩ <;> rw [h] <;> exact hm
  | leave x waiting hw =>
    rw [Action.perform, machineOf_leave]
    exact hm

theorem output_step (p : Program) (limits : Limits) (s : Stack) : P (machineOf (s.step p limits m)).output := by
  rcases s.step_action with ⟨-, act, hact⟩ | ⟨-, e, -, he⟩
  · rw [hact, bind_apply]
    by_cases hs : m.steps < limits.maxSteps
    · rw [tick_ok limits hs]
      exact output_perform hwrite (m := { m with steps := m.steps + 1 }) hm act
    · rw [tick_error limits (Nat.le_of_not_lt hs)]
      exact hm
  · rw [he]
    exact hm

theorem Halts.output {s : Stack} {trace : List Snapshot} {r : EStateM.Result RuntimeError Machine Value}
    (h : Halts p limits s m trace r) : P (machineOf r).output := by
  induction h with
  | @finished s m m' x hs =>
    have hstep := output_step hwrite hm p limits s
    rwa [hs] at hstep
  | @failed s m m' e hs =>
    have hstep := output_step hwrite hm p limits s
    rwa [hs] at hstep
  | @step s s' m m' trace r hs hr ih =>
    have hstep := output_step hwrite hm p limits s
    rw [hs] at hstep
    exact ih hstep

theorem output_call (p : Program) (limits : Limits) (id : FunctionId) (args : List Value) :
    P (machineOf (call p limits id args m)).output := by
  obtain ⟨trace, h⟩ := performs_call p limits id args m
  rcases h.inv with ⟨e, -, -, hr⟩ | ⟨-, a, r, -, hh, hr⟩
  · rw [hr]
    exact hm
  · rw [hr, machineOf_atDepth]
    exact Halts.output hwrite (m := { m with depth := m.depth + 1 }) hm hh

end Output

/-! ## Higher limits -/

section Relaxed

variable (hsteps : limits.maxSteps ≤ limits'.maxSteps) (hdepth : limits.maxCallDepth ≤ limits'.maxCallDepth)

/-- The result `r` under low limits and `r'` under high ones: they are the same, or the limits have stopped the first
before anything was printed. -/
def SameUnlessLimited (m : Machine) (r r' : EStateM.Result RuntimeError Machine α) : Prop :=
  r' = r ∨ Limited r ∧ (machineOf r).output = m.output

include hdepth in
theorem enter_relaxed (id : FunctionId) (args : List Value) (m : Machine) :
    SameUnlessLimited m (enter p limits id args m) (enter p limits' id args m) := by
  unfold enter
  cases p.body? id with
  | none => exact Or.inl rfl
  | some b =>
    dsimp only
    split
    · by_cases hd : limits.maxCallDepth ≤ m.depth
      · rw [if_pos hd]
        exact Or.inr ⟨⟨_, _, rfl, rfl⟩, rfl⟩
      · rw [if_neg hd]
        by_cases hd' : limits'.maxCallDepth ≤ m.depth
        · exact absurd (Nat.le_trans hdepth hd') hd
        · rw [if_neg hd']
          exact Or.inl rfl
    · exact Or.inl rfl

include hdepth in
theorem perform_relaxed {n : Nat} (act : Action n) (m : Machine) :
    SameUnlessLimited m (act.perform p limits m) (act.perform p limits' m) := by
  cases act with
  | enter id args waiting hw =>
    simp only [Action.perform, bind_apply]
    rcases enter_relaxed hdepth (p := p) id args m with h | ⟨⟨e, m', h, he⟩, ho⟩
    · rw [h]
      exact Or.inl rfl
    · rw [h] at ho ⊢
      exact Or.inr ⟨⟨e, m', rfl, he⟩, ho⟩
  | _ => exact Or.inl rfl

include hsteps hdepth

/-- With higher limits a step does the same, unless a limit has stopped it before it has printed anything. -/
theorem step_relaxed (s : Stack) (m : Machine) : SameUnlessLimited m (s.step p limits m) (s.step p limits' m) := by
  rcases s.step_action with ⟨-, act, hact⟩ | ⟨-, e, -, he⟩
  · rw [hact, hact, bind_apply, bind_apply]
    by_cases hs : m.steps < limits.maxSteps
    · rw [tick_ok limits hs, tick_ok limits' (Nat.lt_of_lt_of_le hs hsteps)]
      exact perform_relaxed hdepth act { m with steps := m.steps + 1 }
    · rw [tick_error limits (Nat.le_of_not_lt hs)]
      exact Or.inr ⟨⟨_, _, rfl, rfl⟩, rfl⟩
  · rw [he, he]
    exact Or.inl rfl

/-- A run goes the same way up to where a limit stops it. -/
theorem Halts.relaxed {s : Stack} {m : Machine} {trace : List Snapshot} {r : EStateM.Result RuntimeError Machine Value}
    (h : Halts p limits s m trace r) :
    Halts p limits' s m trace r ∨
      Limited r ∧ ∀ trace' r', Halts p limits' s m trace' r' → (machineOf r).output.Grows (machineOf r').output := by
  induction h with
  | @finished s m m' x hs =>
    have hstep := step_relaxed hsteps hdepth (p := p) s m
    rw [hs] at hstep
    rcases hstep with h' | ⟨⟨e, _, hlimited, -⟩, -⟩
    · exact Or.inl (.finished h')
    · cases hlimited
  | @failed s m m' e hs =>
    have hstep := step_relaxed hsteps hdepth (p := p) s m
    rw [hs] at hstep
    rcases hstep with h' | ⟨⟨e', m'', heq, he'⟩, hout⟩
    · exact Or.inl (.failed h')
    · cases heq
      refine Or.inr ⟨⟨e, m', rfl, he'⟩, fun trace' r' hr' => ?_⟩
      change m'.output = m.output at hout
      change m'.output.Grows _
      rw [hout]
      exact hr'.output (fun _ s h => h.write s) (.refl _)
  | @step s s' m m' trace r hs hr ih =>
    have hstep := step_relaxed hsteps hdepth (p := p) s m
    rw [hs] at hstep
    rcases hstep with h' | ⟨⟨e, _, hlimited, -⟩, -⟩
    · rcases ih with hr' | ⟨hlimited, hall⟩
      · exact Or.inl (.step h' hr')
      · refine Or.inr ⟨hlimited, fun trace' r' hr' => ?_⟩
        obtain ⟨rest, -, hrest⟩ := hr'.rest h'
        exact hall rest r' hrest
    · cases hlimited

/-- A call goes the same way up to where a limit stops it. -/
theorem call_same_or_limited (p : Program) (id : FunctionId) (args : List Value) (m : Machine) :
    call p limits' id args m = call p limits id args m ∨
      Limited (call p limits id args m) ∧
        (machineOf (call p limits id args m)).output.Grows (machineOf (call p limits' id args m)).output := by
  obtain ⟨trace, h⟩ := performs_call p limits id args m
  have henter := enter_relaxed hdepth (p := p) id args m
  rcases h.inv with ⟨e, he, -, hcall⟩ | ⟨-, a, r, he, hr, hcall⟩
  · rw [he] at henter
    rw [hcall]
    rcases henter with he' | ⟨⟨e', m', heq, hlimit⟩, -⟩
    · exact Or.inl (Performs.refused he').eq_call.symm
    · cases heq
      exact Or.inr ⟨⟨e, m, rfl, hlimit⟩, output_call (fun _ s h => h.write s) (.refl m.output) p limits' id args⟩
  · rw [he] at henter
    rw [hcall]
    rcases henter with he' | ⟨⟨e', m', heq, -⟩, -⟩
    · rcases hr.relaxed hsteps hdepth with hr' | ⟨⟨e, m', rfl, hlimit⟩, hall⟩
      · exact Or.inl (Performs.runs he' hr').eq_call.symm
      · refine Or.inr ⟨⟨e, _, rfl, hlimit⟩, ?_⟩
        obtain ⟨trace', r', hr'⟩ := exists_halts p limits' ⟨a, []⟩ { m with depth := m.depth + 1 }
        rw [← (Performs.runs he' hr').eq_call, machineOf_atDepth, machineOf_atDepth]
        exact hall trace' r' hr'
    · cases heq

/-- Limits only cut runs short: under higher ones, a call that no limit has stopped ends in the same way and leaves the
same machine, and a call that a limit has stopped prints what it has printed, and possibly more. -/
theorem call_relaxed (p : Program) (id : FunctionId) (args : List Value) (m : Machine) :
    (¬ Limited (call p limits id args m) → call p limits' id args m = call p limits id args m) ∧
    (Limited (call p limits id args m) → ∃ rest, (machineOf (call p limits' id args m)).output.text =
      (machineOf (call p limits id args m)).output.text ++ rest) := by
  rcases call_same_or_limited hsteps hdepth p id args m with hsame | ⟨hlimited, hgrows⟩
  · refine ⟨fun _ => hsame, fun _ => ?_⟩
    rw [hsame]
    exact Output.Grows.refl _
  · exact ⟨fun hnot => absurd hlimited hnot, fun _ => hgrows⟩

end Relaxed

/-- After 20 steps a loop has printed one of its lines; after 100 it is over, however many more there are. -/
theorem call_relaxed_loop :
    let p := (compile {} "FUNC main(n) WHILE n DO \x7b PRINT n n := n - 1 \x7d DONE").program
    let run (steps : Nat) := call p ⟨1, steps⟩ 0 [.number 3] (.initial none)
    Limited (run 20) ∧ (machineOf (run 20)).output.text = "3\n" ∧
      (∃ rest, (machineOf (run 1000)).output.text = "3\n" ++ rest) ∧
      ¬ Limited (run 100) ∧ (machineOf (run 100)).output.text = "3\n2\n1\n" ∧ run 1000 = run 100 := by
  intro p run
  have hlimited : Limited (run 20) := by decide +kernel +zetaReduce
  have hprinted : (machineOf (run 20)).output.text = "3\n" := by decide +kernel +zetaReduce
  have hover : ¬ Limited (run 100) := by decide +kernel +zetaReduce
  have hall : (machineOf (run 100)).output.text = "3\n2\n1\n" := by decide +kernel +zetaReduce
  have h20 : (⟨1, 20⟩ : Limits).maxSteps ≤ (⟨1, 1000⟩ : Limits).maxSteps := by decide
  have h100 : (⟨1, 100⟩ : Limits).maxSteps ≤ (⟨1, 1000⟩ : Limits).maxSteps := by decide
  have hmore := (call_relaxed h20 (Nat.le_refl 1) p 0 [.number 3] (.initial none)).2 hlimited
  have hsame := (call_relaxed h100 (Nat.le_refl 1) p 0 [.number 3] (.initial none)).1 hover
  refine ⟨hlimited, hprinted, ?_, hover, hall, hsame⟩
  rw [← hprinted]
  exact hmore

/-! ## Used machines -/

/-- The machine `m`, as it is after other runs, which have left `before`. -/
def onTop (before m : Machine) : Machine where
  steps := before.steps + m.steps
  depth := m.depth
  output := { m.output with text := before.output.text ++ m.output.text }

def left (limits : Limits) (before : Machine) : Limits := { limits with maxSteps := limits.maxSteps - before.steps }

@[simp] theorem depth_onTop (before m : Machine) : (onTop before m).depth = m.depth := rfl

@[simp] theorem maxCallDepth_left (limits : Limits) (before : Machine) :
    (left limits before).maxCallDepth = limits.maxCallDepth := rfl

/-- A machine that is out of steps says how many there were. -/
def outOf (steps : Nat) : RuntimeError → RuntimeError
  | .stepLimit _ => .stepLimit steps
  | e => e

def resultOnTop (limits : Limits) (before : Machine) :
    EStateM.Result RuntimeError Machine α → EStateM.Result RuntimeError Machine α
  | .ok a m => .ok a (onTop before m)
  | .error e m => .error (outOf limits.maxSteps e) (onTop before m)

theorem outOf_of_not_limit {e : RuntimeError} (he : e.isLimit = false) (n : Nat) : outOf n e = e := by
  cases e with
  | stepLimit k => cases he
  | _ => rfl

/-- The output has no bound, and no character of it is torn. -/
def Unbounded (o : Output) : Prop := o.room = none ∧ o.torn = false

theorem Unbounded.write {o : Output} (h : Unbounded o) (s : String) : Unbounded (o.write s).2 := by
  simp only [Output.write, h.1]
  exact ⟨rfl, h.2⟩

section Used

variable (limits : Limits) (before : Machine) {m : Machine}

theorem tick_onTop (m : Machine) :
    tick limits (onTop before m) = resultOnTop limits before (tick (left limits before) m) := by
  by_cases hs : m.steps < limits.maxSteps - before.steps
  · have hlt : before.steps + m.steps < limits.maxSteps := by omega
    rw [tick_ok (left limits before) hs, tick_ok limits (m := onTop before m) hlt]
    rfl
  · have hle : limits.maxSteps ≤ before.steps + m.steps := by omega
    rw [tick_error (left limits before) (Nat.le_of_not_lt hs), tick_error limits (m := onTop before m) hle]
    rfl

theorem printLine_unbounded (hm : Unbounded m.output) (line : String) :
    printLine line m = .ok () { m with output := { m.output with text := m.output.text ++ line ++ "\n" } } := by
  simp only [printLine, Output.write, hm.1]

theorem enter_onTop (p : Program) (id : FunctionId) (args : List Value) (m : Machine) :
    enter p limits id args (onTop before m) = resultOnTop limits before (enter p (left limits before) id args m) := by
  unfold enter
  cases p.body? id with
  | none => rfl
  | some b =>
    dsimp only
    by_cases hn : b.params = args.length
    · rw [if_pos hn, if_pos hn, depth_onTop, maxCallDepth_left]
      by_cases hd : limits.maxCallDepth ≤ m.depth
      · rw [if_pos hd, if_pos hd]
        rfl
      · rw [if_neg hd, if_neg hd]
        rfl
    · rw [if_neg hn, if_neg hn]
      rfl

theorem leave_onTop (x : Value) (waiting : List (Activation × ValueId)) (m : Machine) :
    leave x waiting (onTop before m) = resultOnTop limits before (leave x waiting m) := by
  cases waiting with
  | nil => rfl
  | cons w waiting =>
    simp only [leave]
    rcases quiet_define w.1.body w.1.frame w.2 x with ⟨f, h⟩ | ⟨e, h, he⟩
    · rw [h]
      rfl
    · rw [h]
      exact congrArg (EStateM.Result.error · _) (outOf_of_not_limit he limits.maxSteps).symm

theorem perform_onTop {n : Nat} (act : Action n) (hm : Unbounded m.output) :
    act.perform p limits (onTop before m) = resultOnTop limits before (act.perform p (left limits before) m) := by
  cases act with
  | move s hs => rfl
  | fail e he => exact congrArg (EStateM.Result.error · _) (outOf_of_not_limit he limits.maxSteps).symm
  | print line s hs =>
    have hm' : Unbounded (onTop before m).output := hm
    simp only [Action.perform, bind_apply]
    rw [printLine_unbounded hm, printLine_unbounded hm']
    simp only [onTop, String.append_assoc]
    rfl
  | enter id args waiting hw =>
    simp only [Action.perform, bind_apply, enter_onTop]
    cases enter p (left limits before) id args m <;> rfl
  | leave x waiting hw => exact leave_onTop limits before x waiting m

theorem step_onTop (s : Stack) (hm : Unbounded m.output) :
    s.step p limits (onTop before m) = resultOnTop limits before (s.step p (left limits before) m) := by
  rcases s.step_action with ⟨-, act, hact⟩ | ⟨-, e, he, hfail⟩
  · rw [hact, hact, bind_apply, bind_apply, tick_onTop]
    by_cases hs : m.steps < (left limits before).maxSteps
    · rw [tick_ok _ hs]
      exact perform_onTop limits before act hm
    · rw [tick_error _ (Nat.le_of_not_lt hs)]
      rfl
  · rw [hfail, hfail]
    exact congrArg (EStateM.Result.error · _) (outOf_of_not_limit he limits.maxSteps).symm

variable {limits before} {s : Stack} {trace : List Snapshot} {r : EStateM.Result RuntimeError Machine Value}

/-- A run goes the same way after other runs, with the steps that they have left. -/
theorem Halts.onTop (h : Halts p (left limits before) s m trace r) (hm : Unbounded m.output) :
    ∃ trace', Halts p limits s (onTop before m) trace' (resultOnTop limits before r) := by
  induction h with
  | @finished s m m' x hs =>
    have hstep := step_onTop limits before (p := p) s hm
    rw [hs] at hstep
    exact ⟨_, .finished hstep⟩
  | @failed s m m' e hs =>
    have hstep := step_onTop limits before (p := p) s hm
    rw [hs] at hstep
    exact ⟨_, .failed hstep⟩
  | @step s s' m m' trace r hs hr ih =>
    have hstep := step_onTop limits before (p := p) s hm
    have hu := output_step (fun _ s h => h.write s) hm p (left limits before) s
    rw [hs] at hstep hu
    obtain ⟨trace', hr'⟩ := ih hu
    exact ⟨_, .step hstep hr'⟩

theorem atDepth_resultOnTop (d : Nat) :
    atDepth d (resultOnTop limits before r) = resultOnTop limits before (atDepth d r) := by
  cases r <;> rfl

variable {id : FunctionId} {args : List Value}

/-- A call goes the same way after other runs, with the steps that they have left. -/
theorem call_onTop (hm : Unbounded m.output) :
    call p limits id args (onTop before m) = resultOnTop limits before (call p (left limits before) id args m) := by
  have henter := enter_onTop limits before p id args m
  obtain ⟨trace, h⟩ := performs_call p (left limits before) id args m
  rcases h.inv with ⟨e, he, -, hr⟩ | ⟨-, a, r, he, hh, hr⟩
  · rw [he] at henter
    rw [hr]
    exact (Performs.refused henter).eq_call.symm
  · rw [he] at henter
    obtain ⟨trace', hh'⟩ := hh.onTop hm
    rw [hr, ← atDepth_resultOnTop]
    exact (Performs.runs henter hh').eq_call.symm

end Used

/-- The same value or the same error, except that machines that are out of steps say how many there were. -/
inductive EndsAlike : EStateM.Result RuntimeError Machine α → EStateM.Result RuntimeError Machine α → Prop
  | value (a : α) (m m' : Machine) : EndsAlike (.ok a m) (.ok a m')
  | error (e : RuntimeError) (m m' : Machine) : EndsAlike (.error e m) (.error e m')
  | outOfSteps (k n : Nat) (m m' : Machine) : EndsAlike (.error (.stepLimit k) m) (.error (.stepLimit n) m')

theorem endsAlike_resultOnTop (limits : Limits) (before : Machine) (r : EStateM.Result RuntimeError Machine α) :
    EndsAlike (resultOnTop limits before r) r := by
  cases r with
  | ok a m => exact .value a _ _
  | error e m =>
    cases e with
    | stepLimit n => exact .outOfSteps _ n _ _
    | _ => exact .error _ _ _

def callAll (p : Program) (limits : Limits) (calls : List (FunctionId × List Value)) (m : Machine) : Machine :=
  calls.foldl (fun m c => machineOf (call p limits c.1 c.2 m)) m

/-- Between calls no activation is open, and the output has no bound. -/
theorem callAll_initial (p : Program) (limits : Limits) (calls : List (FunctionId × List Value)) :
    (callAll p limits calls (.initial none)).depth = 0 ∧ Unbounded (callAll p limits calls (.initial none)).output := by
  suffices h : ∀ m : Machine, m.depth = 0 → Unbounded m.output →
      (callAll p limits calls m).depth = 0 ∧ Unbounded (callAll p limits calls m).output from h _ rfl ⟨rfl, rfl⟩
  induction calls with
  | nil => exact fun m hd hm => ⟨hd, hm⟩
  | cons c calls ih =>
    intro m hd hm
    exact ih _ ((depth_call p limits c.1 c.2 m).trans hd) (output_call (fun _ s h => h.write s) hm p limits c.1 c.2)

theorem eq_onTop_initial {m : Machine} (hd : m.depth = 0) (hm : Unbounded m.output) : m = onTop m (.initial none) := by
  obtain ⟨steps, depth, text, room, torn⟩ := m
  obtain ⟨rfl, rfl⟩ := hm
  obtain rfl : depth = 0 := hd
  simp [onTop, initial, Output.empty]

/-- A machine can be used again after any calls, however they have ended: the next call ends and prints as it does on a
new machine that has the steps that are left, and takes as many of them. -/
theorem call_reused (p : Program) (limits : Limits) (calls : List (FunctionId × List Value)) (id : FunctionId)
    (args : List Value) :
    let used := callAll p limits calls (.initial none)
    let fresh := call p { limits with maxSteps := limits.maxSteps - used.steps } id args (.initial none)
    EndsAlike (call p limits id args used) fresh ∧
      (machineOf (call p limits id args used)).output.text = used.output.text ++ (machineOf fresh).output.text ∧
      (machineOf (call p limits id args used)).steps = used.steps + (machineOf fresh).steps := by
  intro used fresh
  obtain ⟨hd, hm⟩ := callAll_initial p limits calls
  have hused : used = onTop used (.initial none) := eq_onTop_initial hd hm
  have hcall : call p limits id args (onTop used (.initial none)) = resultOnTop limits used fresh :=
    call_onTop ⟨rfl, rfl⟩
  rw [← hused] at hcall
  rw [hcall]
  refine ⟨endsAlike_resultOnTop limits used fresh, ?_⟩
  cases fresh <;> exact ⟨rfl, rfl⟩

end Machine

end Funclet
