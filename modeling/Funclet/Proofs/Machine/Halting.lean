import Funclet.Proofs.Machine.Stack

/-!
# Every run ends

* `step_steps`, `step_ok`, `step_running` : what a step does to the counters of the machine;
* `Halts` : a run that ends, with its steps; every run does (`exists_halts`), in only one way (`Halts.unique`), and
  comes to its outcome (`Halts.outcome`);
* `Performs` : the steps of a whole call, and what it comes to (`performs_call`);
* `call_accounts` : a call ends for every program, its steps are counted, and its activations are closed.
-/

namespace Funclet.Machine

variable {α : Type} {p : Program} {limits : Limits}

def machineOf : EStateM.Result RuntimeError Machine α → Machine
  | .ok _ m => m
  | .error _ m => m

/-! ## What a step does to the counters -/

section Actions

variable {n : Nat} (act : Action n) (m : Machine)

theorem machineOf_define (b : Body) (f : Frame) (v : ValueId) (x : Value) : machineOf (define b f v x m) = m := by
  rcases quiet_define b f v x with ⟨a, h⟩ | ⟨e, h, -⟩ <;> rw [h] <;> rfl

theorem counters_printLine (line : String) :
    (machineOf (printLine line m)).steps = m.steps ∧ (machineOf (printLine line m)).depth = m.depth := by
  simp only [printLine]
  cases m.output.write line with
  | mk fits output =>
    cases fits with
    | false => exact ⟨rfl, rfl⟩
    | true =>
      dsimp only
      cases output.write "\n" with
      | mk fits' output' => cases fits' <;> exact ⟨rfl, rfl⟩

theorem machineOf_leave (x : Value) (waiting : List (Activation × ValueId)) :
    machineOf (leave x waiting m) = { m with depth := m.depth - 1 } := by
  cases waiting with
  | nil => rfl
  | cons w waiting =>
    have hd := machineOf_define { m with depth := m.depth - 1 } w.1.body w.1.frame w.2 x
    simp only [leave]
    cases h : define w.1.body w.1.frame w.2 x { m with depth := m.depth - 1 } with
    | ok f m' => rwa [h] at hd
    | error e m' => rwa [h] at hd

/-- Only the beginning of a step is counted. -/
theorem steps_perform : (machineOf (act.perform p limits m)).steps = m.steps := by
  cases act with
  | move s hs => rfl
  | fail e he => rfl
  | print line s hs =>
    have hp := (counters_printLine m line).1
    simp only [Action.perform, bind_apply]
    cases h : printLine line m with
    | ok _ m' => rwa [h] at hp
    | error e m' => rwa [h] at hp
  | enter id args waiting hw =>
    simp only [Action.perform, bind_apply]
    rcases enter_cases p limits id args m with ⟨e, h, -⟩ | ⟨-, a, h, -⟩ <;> rw [h] <;> rfl
  | leave x waiting hw =>
    rw [Action.perform, machineOf_leave]

variable {m} in
/-- The machine knows how many activations are open, above those that were open when the run began. -/
theorem depth_perform {s' : Stack} {m' : Machine} {d : Nat} (h : act.perform p limits m = .ok (.running s') m')
    (hd : m.depth = d + n) (hmax : m.depth ≤ limits.maxCallDepth) :
    m'.depth = d + s'.size ∧ m'.depth ≤ limits.maxCallDepth := by
  cases act with
  | move s hs =>
    cases h
    exact ⟨by omega, hmax⟩
  | fail e he => cases h
  | print line s hs =>
    have hp := (counters_printLine m line).2
    simp only [Action.perform, bind_apply] at h
    cases hl : printLine line m with
    | ok _ m₁ =>
      rw [hl] at h hp
      cases h
      change m'.depth = m.depth at hp
      exact ⟨by omega, by omega⟩
    | error e m₁ =>
      rw [hl] at h
      cases h
  | enter id args waiting hw =>
    simp only [Action.perform, bind_apply] at h
    rcases enter_cases p limits id args m with ⟨e, he, -⟩ | ⟨hlt, a, he, -⟩
    · rw [he] at h
      cases h
    · rw [he] at h
      cases h
      simp only [Stack.size]
      exact ⟨by omega, by omega⟩
  | leave x waiting hw =>
    have hm := machineOf_leave m x waiting
    rw [Action.perform] at h
    rw [h] at hm
    have hdepth : m'.depth = m.depth - 1 := congrArg depth hm
    have hsize : s'.size = waiting.length := by
      cases waiting with
      | nil => cases h
      | cons w waiting =>
        simp only [leave] at h
        split at h <;> cases h
        rfl
    exact ⟨by omega, by omega⟩

end Actions

section Steps

/-- A step counts if it begins, whatever comes of it. -/
theorem step_steps (p : Program) (limits : Limits) (s : Stack) (m : Machine) :
    (machineOf (s.step p limits m)).steps = m.steps + s.begins.toNat := by
  rcases s.step_action with ⟨hb, act, hact⟩ | ⟨hb, e, -, he⟩
  · rw [hact, hb, bind_apply]
    by_cases hs : m.steps < limits.maxSteps
    · rw [tick_ok limits hs]
      exact steps_perform act _
    · rw [tick_error limits (Nat.le_of_not_lt hs)]
      rfl
  · rw [he, hb]
    rfl

variable {s : Stack} {m m' : Machine}

/-- A step that does not fail has begun, and the limit has left room for it. -/
theorem step_ok {c : Control} (h : s.step p limits m = .ok c m') :
    m'.steps = m.steps + 1 ∧ m.steps < limits.maxSteps := by
  have hsteps := step_steps p limits s m
  rcases s.step_action with ⟨hb, act, hact⟩ | ⟨-, e, -, he⟩
  · rw [h, hb] at hsteps
    refine ⟨hsteps, Nat.lt_of_not_le fun hspent => ?_⟩
    rw [hact, bind_apply, tick_error limits hspent] at h
    cases h
  · rw [he] at h
    cases h

theorem step_running {s' : Stack} {d : Nat} (h : s.step p limits m = .ok (.running s') m')
    (hd : m.depth = d + s.size) (hmax : m.depth ≤ limits.maxCallDepth) :
    m'.depth = d + s'.size ∧ m'.depth ≤ limits.maxCallDepth := by
  have hlt := (step_ok h).2
  rcases s.step_action with ⟨-, act, hact⟩ | ⟨-, e, -, he⟩
  · rw [hact, bind_apply, tick_ok limits hlt] at h
    exact depth_perform act h hd hmax
  · rw [he] at h
    cases h

end Steps

/-! ## Runs -/

/-- The open activations and the machine at the beginning of a step. -/
abbrev Snapshot := Stack × Machine

/-- A run that ends: the steps it takes from a stack on, and what comes of the last one. -/
inductive Halts (p : Program) (limits : Limits) :
    Stack → Machine → List Snapshot → EStateM.Result RuntimeError Machine Value → Prop
  | finished {s : Stack} {m m' : Machine} {x : Value} (h : s.step p limits m = .ok (.finished x) m') :
      Halts p limits s m [(s, m)] (.ok x m')
  | failed {s : Stack} {m m' : Machine} {e : RuntimeError} (h : s.step p limits m = .error e m') :
      Halts p limits s m [(s, m)] (.error e m')
  | step {s s' : Stack} {m m' : Machine} {trace : List Snapshot} {r : EStateM.Result RuntimeError Machine Value}
      (h : s.step p limits m = .ok (.running s') m') (hr : Halts p limits s' m' trace r) :
      Halts p limits s m ((s, m) :: trace) r

/-- What is left of the steps gets less with every one of them. -/
theorem exists_halts (p : Program) (limits : Limits) (s : Stack) (m : Machine) :
    ∃ trace r, Halts p limits s m trace r := by
  generalize hn : limits.maxSteps - m.steps = n
  induction n using Nat.strongRecOn generalizing s m with
  | ind n ih =>
    cases h : s.step p limits m with
    | error e m' => exact ⟨_, _, .failed h⟩
    | ok c m' =>
      cases c with
      | finished x => exact ⟨_, _, .finished h⟩
      | running s' =>
        obtain ⟨hsteps, hlt⟩ := step_ok h
        obtain ⟨trace, r, hr⟩ := ih (limits.maxSteps - m'.steps) (by omega) s' m' rfl
        exact ⟨_, _, .step h hr⟩

namespace Halts

variable {s : Stack} {m : Machine} {trace trace' : List Snapshot} {r r' : EStateM.Result RuntimeError Machine Value}

/-- A run that goes on ends as its rest does. -/
theorem rest {s' : Stack} {m' : Machine} (h : Halts p limits s m trace r)
    (hs : s.step p limits m = .ok (.running s') m') : ∃ rest, trace = (s, m) :: rest ∧ Halts p limits s' m' rest r := by
  cases h with
  | finished h =>
    rw [hs] at h
    cases h
  | failed h =>
    rw [hs] at h
    cases h
  | step h hr =>
    rw [hs] at h
    cases h
    exact ⟨_, rfl, hr⟩

theorem unique (h : Halts p limits s m trace r) (h' : Halts p limits s m trace' r') : trace' = trace ∧ r' = r := by
  induction h generalizing trace' with
  | finished hs => cases h' <;> simp_all
  | failed hs => cases h' <;> simp_all
  | step hs hr ih =>
    obtain ⟨rest, rfl, hrest⟩ := h'.rest hs
    obtain ⟨rfl, rfl⟩ := ih hrest
    exact ⟨rfl, rfl⟩

/-- The steps that begin are counted, and no others. -/
theorem steps (h : Halts p limits s m trace r) :
    (machineOf r).steps = m.steps + trace.countP fun c => c.1.begins := by
  have hbegun (s : Stack) (m : Machine) (trace : List Snapshot) :
      ((s, m) :: trace).countP (fun c => c.1.begins) = s.begins.toNat + trace.countP fun c => c.1.begins := by
    rw [List.countP_cons]
    cases s.begins <;> simp [Nat.add_comm]
  induction h with
  | @finished s m m' x hs =>
    have hsteps := step_steps p limits s m
    rw [hs] at hsteps
    rw [hbegun]
    exact hsteps
  | @failed s m m' e hs =>
    have hsteps := step_steps p limits s m
    rw [hs] at hsteps
    rw [hbegun]
    exact hsteps
  | @step s s' m m' trace r hs hr ih =>
    have hsteps : m'.steps = m.steps + s.begins.toNat := by
      have := step_steps p limits s m
      rwa [hs] at this
    rw [hbegun]
    omega

/-- At most one step begins when none is left. -/
theorem steps_le (h : Halts p limits s m trace r) : (machineOf r).steps ≤ max limits.maxSteps m.steps + 1 := by
  induction h with
  | finished hs =>
    have hsteps := step_ok hs
    simp only [machineOf]
    omega
  | @failed s m m' e hs =>
    have hsteps := step_steps p limits s m
    rw [hs] at hsteps
    have hone := Bool.toNat_le s.begins
    simp only [machineOf] at hsteps ⊢
    omega
  | step hs hr ih =>
    have hsteps := step_ok hs
    omega

/-- At every step, as many activations are open as the machine says, and no more than the limit allows. -/
theorem depth (h : Halts p limits s m trace r) {d : Nat} (hd : m.depth = d + s.size)
    (hmax : m.depth ≤ limits.maxCallDepth) :
    ∀ c ∈ trace, c.2.depth = d + c.1.size ∧ c.2.depth ≤ limits.maxCallDepth := by
  induction h with
  | finished hs => simpa using ⟨hd, hmax⟩
  | failed hs => simpa using ⟨hd, hmax⟩
  | step hs hr ih =>
    obtain ⟨hd', hmax'⟩ := step_running hs hd hmax
    intro c hc
    rcases List.mem_cons.1 hc with rfl | hc
    · exact ⟨hd, hmax⟩
    · exact ih hd' hmax' c hc

end Halts

def atDepth (d : Nat) : EStateM.Result RuntimeError Machine α → EStateM.Result RuntimeError Machine α
  | .ok a m => .ok a { m with depth := d }
  | .error e m => .error e { m with depth := d }

/-- A run that ends comes to its outcome. -/
theorem Halts.outcome {s : Stack} {m : Machine} {trace : List Snapshot} {r : EStateM.Result RuntimeError Machine Value}
    (h : Halts p limits s m trace r) : ∃ d, s.outcome p limits m = atDepth d r := by
  induction h with
  | @finished s m m' x hs =>
    have ho := s.outcome_step p limits m
    rw [hs] at ho
    exact ⟨m'.depth, ho⟩
  | @failed s m m' e hs =>
    have ho := s.outcome_step p limits m
    rw [hs] at ho
    exact ho
  | @step s s' m m' trace r hs hr ih =>
    have ho := s.outcome_step p limits m
    rw [hs] at ho
    obtain ⟨d, hd⟩ := ih
    exact ⟨d, ho.trans hd⟩

/-! ## Calls -/

/-- The steps of a call, and what comes of it. However it ends, all activations that it has opened are closed. -/
inductive Performs (p : Program) (limits : Limits) (id : FunctionId) (args : List Value) (m : Machine) :
    List Snapshot → EStateM.Result RuntimeError Machine Value → Prop
  | refused {e : RuntimeError} {m' : Machine} (h : enter p limits id args m = .error e m') :
      Performs p limits id args m [] (.error e m')
  | runs {a : Activation} {m' : Machine} {trace : List Snapshot} {r : EStateM.Result RuntimeError Machine Value}
      (h : enter p limits id args m = .ok a m') (hr : Halts p limits ⟨a, []⟩ m' trace r) :
      Performs p limits id args m trace (atDepth m.depth r)

section Calls

variable {id : FunctionId} {args : List Value} {m : Machine} {trace trace' : List Snapshot}
  {r r' : EStateM.Result RuntimeError Machine Value}

/-- A call is refused, or it opens an activation and runs it. -/
theorem Performs.inv (h : Performs p limits id args m trace r) :
    (∃ e, enter p limits id args m = .error e m ∧ trace = [] ∧ r = .error e m) ∨
    m.depth < limits.maxCallDepth ∧ ∃ a r', enter p limits id args m = .ok a { m with depth := m.depth + 1 } ∧
      Halts p limits ⟨a, []⟩ { m with depth := m.depth + 1 } trace r' ∧ r = atDepth m.depth r' := by
  rcases enter_cases p limits id args m with ⟨e, henter, -⟩ | ⟨hlt, a, henter, -⟩
  · refine Or.inl ⟨e, henter, ?_⟩
    cases h with
    | refused he =>
      rw [henter] at he
      cases he
      exact ⟨rfl, rfl⟩
    | runs he hr =>
      rw [henter] at he
      cases he
  · refine Or.inr ⟨hlt, a, ?_⟩
    cases h with
    | refused he =>
      rw [henter] at he
      cases he
    | runs he hr =>
      rw [henter] at he
      cases he
      exact ⟨_, henter, hr, rfl⟩

theorem Performs.unique (h : Performs p limits id args m trace r) (h' : Performs p limits id args m trace' r') :
    trace' = trace ∧ r' = r := by
  rcases h.inv with ⟨e, he, rfl, rfl⟩ | ⟨-, a, q, he, hr, rfl⟩
  · rcases h'.inv with ⟨e', he', rfl, rfl⟩ | ⟨-, a', q', he', -⟩
    · rw [he] at he'
      cases he'
      exact ⟨rfl, rfl⟩
    · rw [he] at he'
      cases he'
  · rcases h'.inv with ⟨e', he', -⟩ | ⟨-, a', q', he', hr', rfl⟩
    · rw [he] at he'
      cases he'
    · rw [he] at he'
      cases he'
      obtain ⟨rfl, rfl⟩ := hr.unique hr'
      exact ⟨rfl, rfl⟩

theorem machineOf_atDepth (d : Nat) (r : EStateM.Result RuntimeError Machine α) :
    machineOf (atDepth d r) = { machineOf r with depth := d } := by
  cases r <;> rfl

theorem depth_call (p : Program) (limits : Limits) (id : FunctionId) (args : List Value) (m : Machine) :
    (machineOf (call p limits id args m)).depth = m.depth := (steady_call p limits id args m).2

/-- A call performs its steps and comes to what they come to. -/
theorem performs_call (p : Program) (limits : Limits) (id : FunctionId) (args : List Value) (m : Machine) :
    ∃ trace, Performs p limits id args m trace (call p limits id args m) := by
  rcases enter_cases p limits id args m with ⟨e, he, hc⟩ | ⟨-, a, he, hc⟩
  · rw [hc]
    exact ⟨[], .refused he⟩
  · obtain ⟨trace, r, hr⟩ := exists_halts p limits ⟨a, []⟩ { m with depth := m.depth + 1 }
    obtain ⟨d, hd⟩ := hr.outcome
    have hcall : call p limits id args m = atDepth d r := hc.trans hd
    have hdepth := depth_call p limits id args m
    rw [hcall, machineOf_atDepth] at hdepth
    obtain rfl : d = m.depth := hdepth
    rw [hcall]
    exact ⟨trace, .runs he hr⟩

/-- What performs the steps of a call comes to what the call comes to. -/
theorem Performs.eq_call (h : Performs p limits id args m trace r) : r = call p limits id args m := by
  obtain ⟨trace', h'⟩ := performs_call p limits id args m
  exact (h'.unique h).2

theorem Performs.steps (h : Performs p limits id args m trace r) :
    (machineOf r).steps = m.steps + trace.countP (fun c => c.1.begins) ∧
      (machineOf r).steps ≤ max limits.maxSteps m.steps + 1 := by
  rcases h.inv with ⟨e, -, rfl, rfl⟩ | ⟨-, a, r', -, hr, rfl⟩
  · refine ⟨rfl, ?_⟩
    simp only [machineOf]
    omega
  · rw [machineOf_atDepth]
    exact ⟨hr.steps, hr.steps_le⟩

theorem Performs.depth (h : Performs p limits id args m trace r) :
    ∀ c ∈ trace, c.2.depth = m.depth + c.1.size ∧ m.depth + c.1.size ≤ limits.maxCallDepth := by
  intro c hc
  rcases h.inv with ⟨e, -, rfl, -⟩ | ⟨hlt, a, r', -, hr, -⟩
  · cases hc
  · obtain ⟨hd, hmax⟩ := hr.depth (d := m.depth) rfl hlt c hc
    exact ⟨hd, hd ▸ hmax⟩

/-- A call ends, whatever the program and the limits are: there is one sequence of steps that it performs. Its steps are
those that have begun, of which at most one is beyond the limit; its activations are never more than the limit allows,
and none of them stays open. -/
theorem call_accounts (p : Program) (limits : Limits) (id : FunctionId) (args : List Value) (m : Machine) :
    ∃ trace, Performs p limits id args m trace (call p limits id args m) ∧
      (∀ trace' r, Performs p limits id args m trace' r → trace' = trace ∧ r = call p limits id args m) ∧
      (machineOf (call p limits id args m)).steps = m.steps + trace.countP (fun c => c.1.begins) ∧
      (machineOf (call p limits id args m)).steps ≤ max limits.maxSteps m.steps + 1 ∧
      (∀ c ∈ trace, c.2.depth = m.depth + c.1.size ∧ m.depth + c.1.size ≤ limits.maxCallDepth) ∧
      (machineOf (call p limits id args m)).depth = m.depth := by
  obtain ⟨trace, h⟩ := performs_call p limits id args m
  exact ⟨trace, h, fun trace' r h' => h.unique h', h.steps.1, h.steps.2, h.depth, depth_call p limits id args m⟩

end Calls

end Funclet.Machine
