import Funclet.Proofs.Machine.Costs

/-!
# Runs with a stack

A call is also a run of a machine that keeps its activations on a stack and takes one step after the other. It has
nothing to count down; that it comes to an end is a fact about its steps.

* `Activation`, `Stack`, `Stack.step` : the machine, which begins one instruction or terminator with each step;
* `Action` : all that a step can do once it has begun (`Stack.step_action`);
* `Stack.outcome` : what a run comes to, given what calls come to; a step does not change it (`outcome_step`).
-/

namespace Funclet.Machine

variable {α β : Type}

/-! ## Stacks -/

/-- A body that is being executed: the point it has come to, its values and its slots. -/
structure Activation where
  body : Body
  args : List Value
  point : Point
  frame : Frame

namespace Activation

def start (b : Body) (args : List Value) : Activation := ⟨b, args, ⟨0, 0⟩, .initial b⟩

/-- The activation behind an instruction that has left the frame `f`. -/
def next (a : Activation) (f : Frame) : Activation := { a with point := a.point.plus 1, frame := f }

def jump (a : Activation) (target : RegionId) : Activation := { a with point := ⟨target, 0⟩ }

def region? (a : Activation) : Option Region := a.body.regions[a.point.region]?

def rest (p : Program) (limits : Limits) (a : Activation) : Exec Value := run p a.body a.args limits a.point a.frame

end Activation

structure Stack where
  top : Activation
  /-- Those that wait for a call, innermost first, each with the number of the value that the call is to define. -/
  waiting : List (Activation × ValueId)

namespace Stack

def size (s : Stack) : Nat := s.waiting.length + 1

/-- Whether there is an instruction or a terminator to begin. -/
def begins (s : Stack) : Bool := s.top.region?.isSome

end Stack

inductive Control where
  | running (s : Stack)
  | finished (x : Value)

def enter (p : Program) (limits : Limits) (id : FunctionId) (args : List Value) : Exec Activation := fun m =>
  match p.body? id with
  | none => .error (.undefinedFunction (p.nameOf id)) m
  | some b =>
    if b.params = args.length then
      if limits.maxCallDepth ≤ m.depth then .error (.stackOverflow limits.maxCallDepth) m
      else .ok (.start b args) { m with depth := m.depth + 1 }
    else .error (.arity b.name b.params args.length) m

/-- Closes an activation that gives back `x`. The one that waits for it goes on. -/
def leave (x : Value) (waiting : List (Activation × ValueId)) : Exec Control := fun m =>
  let m := { m with depth := m.depth - 1 }
  match waiting with
  | [] => .ok (.finished x) m
  | (a, dest) :: waiting =>
    match define a.body a.frame dest x m with
    | .ok f m => .ok (.running ⟨a.next f, waiting⟩) m
    | .error e m => .error e m

namespace Stack

/-- Executes an instruction. Only a call opens an activation, so for all others it does not matter how calls run. -/
def execute (p : Program) (limits : Limits) (s : Stack) : Inst → Exec Control
  | .call dest callee vs => do
    let xs ← readAll s.top.body s.top.frame vs
    let a ← enter p limits callee xs
    pure (.running ⟨a, (s.top, dest) :: s.waiting⟩)
  | i => do
    let f ← exec (fun _ _ => throw default) s.top.body s.top.args s.top.frame i
    pure (.running ⟨s.top.next f, s.waiting⟩)

def terminate (s : Stack) (t : Option Terminator) : Exec Control := do
  match ← exit s.top.body s.top.frame s.top.point.region t with
  | .jump target => pure (.running ⟨s.top.jump target, s.waiting⟩)
  | .done x => leave x s.waiting

/-- Executes the instruction or the terminator that the innermost activation has come to. -/
def step (p : Program) (limits : Limits) (s : Stack) : Exec Control :=
  match s.top.region? with
  | none => throw (.malformed s.top.body.name (.region s.top.point.region))
  | some g => do
    tick limits
    match g.insts[s.top.point.index]? with
    | some i => s.execute p limits i
    | none => s.terminate g.terminator

end Stack

/-! ## What a step can do -/

/-- What a step does once it has begun, with `n` activations open. -/
inductive Action (n : Nat) where
  /-- Only the innermost activation changes. -/
  | move (s : Stack) (hs : s.size = n)
  | fail (e : RuntimeError) (he : e.isLimit = false)
  | print (line : String) (s : Stack) (hs : s.size = n)
  | enter (id : FunctionId) (args : List Value) (waiting : List (Activation × ValueId)) (hw : waiting.length = n)
  | leave (x : Value) (waiting : List (Activation × ValueId)) (hw : waiting.length + 1 = n)

def Action.perform {n : Nat} (p : Program) (limits : Limits) : Action n → Exec Control
  | move s _ => pure (.running s)
  | fail e _ => throw e
  | print line s _ => do
    printLine line
    pure (.running s)
  | enter id args waiting _ => do
    let a ← Machine.enter p limits id args
    pure (.running ⟨a, waiting⟩)
  | leave x waiting _ => Machine.leave x waiting

/-- What `x` gives does not depend on the machine, which it leaves alone, and no limit stops it. -/
def Quiet (x : Exec α) : Prop := (∃ a, x = pure a) ∨ ∃ e, x = throw e ∧ e.isLimit = false

theorem Quiet.pure (a : α) : Quiet (pure a : Exec α) := Or.inl ⟨a, rfl⟩

theorem Quiet.throw {e : RuntimeError} (he : e.isLimit = false) : Quiet (throw e : Exec α) := Or.inr ⟨e, rfl, he⟩

theorem throw_bind (e : RuntimeError) (f : α → Exec β) : (throw e >>= f : Exec β) = throw e := rfl

theorem Quiet.bind {x : Exec α} {f : α → Exec β} (hx : Quiet x) (hf : ∀ a, Quiet (f a)) : Quiet (x >>= f) := by
  rcases hx with ⟨a, rfl⟩ | ⟨e, rfl, he⟩
  · rw [pure_bind]
    exact hf a
  · rw [throw_bind]
    exact .throw he

section Frames

variable (b : Body) (f : Frame)

theorem quiet_read (v : ValueId) : Quiet (read b f v) := by
  unfold read
  split
  · exact .pure _
  · exact .throw rfl

theorem quiet_readAll (vs : List ValueId) : Quiet (readAll b f vs) := by
  induction vs with
  | nil => exact .pure _
  | cons v vs ih => exact (quiet_read b f v).bind fun _ => ih.bind fun _ => .pure _

theorem quiet_asNumber (use : NumberUse) (x : Value) : Quiet (asNumber use x) := by
  cases x with
  | number x => exact .pure _
  | text s => exact .throw rfl

theorem quiet_define (v : ValueId) (x : Value) : Quiet (define b f v x) := by
  unfold define
  split
  · exact .pure _
  · exact .throw rfl

theorem quiet_exit (r : RegionId) (t : Option Terminator) : Quiet (exit b f r t) := by
  cases t with
  | none => exact .throw rfl
  | some t =>
    cases t with
    | ret v => exact (quiet_read b f v).bind fun _ => .pure _
    | branch target => exact .pure _
    | branchIf v yes no => exact (quiet_read b f v).bind fun _ => (quiet_asNumber _ _).bind fun _ => .pure _

theorem isLimit_of_apply {op : Primitive} {x y : Float} {e : RuntimeError} (h : op.apply x y = .error e) :
    e.isLimit = false := by
  unfold Primitive.apply at h
  cases op with
  | div =>
    dsimp only at h
    split at h <;> cases h
    rfl
  | _ => cases h

theorem quiet_exec (call : FunctionId → List Value → Exec Value) (args : List Value) (i : Inst)
    (hcall : ∀ dest g vs, i ≠ .call dest g vs) (hprint : ∀ vs, i ≠ .print vs) : Quiet (exec call b args f i) := by
  cases i with
  | const dest c => exact quiet_define b f _ _
  | param dest index =>
    simp only [exec]
    split
    · exact quiet_define b f _ _
    · exact .throw rfl
  | load dest slot =>
    simp only [exec]
    split
    · exact quiet_define b f _ _
    · exact .throw rfl
  | store slot v =>
    refine (quiet_read b f v).bind fun x => ?_
    split
    · exact .pure _
    · exact .throw rfl
  | primitive dest op lhs rhs =>
    refine (quiet_read b f _).bind fun _ => (quiet_asNumber _ _).bind fun _ => (quiet_read b f _).bind fun _ =>
      (quiet_asNumber _ _).bind fun _ => ?_
    split
    · exact quiet_define b f _ _
    · rename_i e he
      exact .throw (isLimit_of_apply he)
  | call dest callee vs => exact absurd rfl (hcall dest callee vs)
  | print vs => exact absurd rfl (hprint vs)

end Frames

/-- What is done after something quiet is done at once, or it fails. -/
theorem Quiet.action {n : Nat} {x : Exec α} (hx : Quiet x) {f : α → Program → Limits → Exec Control}
    (hf : ∀ a, ∃ act : Action n, ∀ p limits, f a p limits = act.perform p limits) :
    ∃ act : Action n, ∀ p limits, (x >>= fun a => f a p limits) = act.perform p limits := by
  rcases hx with ⟨a, rfl⟩ | ⟨e, rfl, he⟩
  · obtain ⟨act, hact⟩ := hf a
    exact ⟨act, fun p limits => by rw [pure_bind, hact]⟩
  · exact ⟨.fail e he, fun p limits => throw_bind e _⟩

namespace Stack

theorem execute_action (s : Stack) (i : Inst) :
    ∃ act : Action s.size, ∀ p limits, s.execute p limits i = act.perform p limits := by
  cases i with
  | call dest callee vs =>
    exact (quiet_readAll _ _ vs).action fun xs => ⟨.enter callee xs ((s.top, dest) :: s.waiting) rfl, fun _ _ => rfl⟩
  | print vs =>
    have h := (quiet_readAll s.top.body s.top.frame vs).action (n := s.size) (f := fun xs _ _ => do
      printLine (String.join (xs.map Value.render))
      pure (.running ⟨s.top.next s.top.frame, s.waiting⟩)) fun xs =>
        ⟨.print _ ⟨s.top.next s.top.frame, s.waiting⟩ rfl, fun _ _ => rfl⟩
    obtain ⟨act, hact⟩ := h
    refine ⟨act, fun p limits => ?_⟩
    rw [← hact p limits]
    simp only [execute, exec, bind_assoc, pure_bind]
  | _ =>
    refine (quiet_exec _ _ _ _ _ ?_ ?_).action fun f => ⟨.move ⟨s.top.next f, s.waiting⟩ rfl, fun _ _ => rfl⟩ <;>
      intros <;> rintro ⟨⟩

theorem terminate_action (s : Stack) (t : Option Terminator) :
    ∃ act : Action s.size, ∀ p limits, s.terminate t = act.perform p limits := by
  refine (quiet_exit _ _ _ t).action (f := fun e _ _ => match e with
    | .jump target => pure (.running ⟨s.top.jump target, s.waiting⟩)
    | .done x => leave x s.waiting) fun e => ?_
  cases e with
  | jump target => exact ⟨.move ⟨s.top.jump target, s.waiting⟩ rfl, fun _ _ => rfl⟩
  | done x => exact ⟨.leave x s.waiting rfl, fun _ _ => rfl⟩

/-- A step that begins is counted, and then does one action; a step that does not begin fails. -/
theorem step_action (s : Stack) :
    (s.begins = true ∧ ∃ act : Action s.size, ∀ p limits, s.step p limits = (do tick limits; act.perform p limits)) ∨
    s.begins = false ∧ ∃ e, e.isLimit = false ∧ ∀ p limits, s.step p limits = throw e := by
  unfold begins step
  cases s.top.region? with
  | none => exact Or.inr ⟨rfl, _, rfl, fun _ _ => rfl⟩
  | some g =>
    refine Or.inl ⟨rfl, ?_⟩
    dsimp only
    cases g.insts[s.top.point.index]? with
    | some i =>
      obtain ⟨act, hact⟩ := s.execute_action i
      exact ⟨act, fun p limits => by simp only [hact]⟩
    | none =>
      obtain ⟨act, hact⟩ := s.terminate_action g.terminator
      exact ⟨act, fun p limits => by simp only [hact p limits]⟩

end Stack

/-! ## What a run comes to -/

variable {p : Program} {limits : Limits}

/-- The result of a part of a run that is one activation deeper. -/
def surface : EStateM.Result RuntimeError Machine α → EStateM.Result RuntimeError Machine α
  | .ok a m => .ok a { m with depth := m.depth - 1 }
  | .error e m => .error e { m with depth := m.depth - 1 }

/-- A call is refused and leaves the machine alone, or it opens an activation and comes to what that comes to. -/
theorem enter_cases (p : Program) (limits : Limits) (id : FunctionId) (xs : List Value) (m : Machine) :
    (∃ e, enter p limits id xs m = .error e m ∧ call p limits id xs m = .error e m) ∨
    m.depth < limits.maxCallDepth ∧ ∃ a, enter p limits id xs m = .ok a { m with depth := m.depth + 1 } ∧
      call p limits id xs m = surface (a.rest p limits { m with depth := m.depth + 1 }) := by
  rw [call_apply]
  unfold enter
  cases p.body? id with
  | none => exact Or.inl ⟨_, rfl, rfl⟩
  | some b =>
    dsimp only
    by_cases hn : b.params = xs.length
    · rw [if_pos hn, if_pos hn]
      by_cases hd : limits.maxCallDepth ≤ m.depth
      · rw [if_pos hd, if_pos hd]
        exact Or.inl ⟨_, rfl, rfl⟩
      · rw [if_neg hd, if_neg hd]
        exact Or.inr ⟨Nat.lt_of_not_le hd, _, rfl, rfl⟩
    · rw [if_neg hn, if_neg hn]
      exact Or.inl ⟨_, rfl, rfl⟩

/-- What a run comes to when its innermost activation ends with the given result. -/
def unwind (p : Program) (limits : Limits) :
    List (Activation × ValueId) → EStateM.Result RuntimeError Machine Value → EStateM.Result RuntimeError Machine Value
  | [], r => surface r
  | (a, dest) :: waiting, r =>
    match surface r with
    | .ok x m => unwind p limits waiting ((define a.body a.frame dest x >>= fun f => (a.next f).rest p limits) m)
    | .error e m => unwind p limits waiting (.error e m)

/-- What a run comes to, given what calls come to. -/
def Stack.outcome (p : Program) (limits : Limits) (s : Stack) (m : Machine) :
    EStateM.Result RuntimeError Machine Value :=
  unwind p limits s.waiting (s.top.rest p limits m)

/-- An error ends all activations. -/
theorem unwind_error (waiting : List (Activation × ValueId)) (e : RuntimeError) (m : Machine) :
    ∃ d, unwind p limits waiting (.error e m) = .error e { m with depth := d } := by
  induction waiting generalizing m with
  | nil => exact ⟨_, rfl⟩
  | cons w waiting ih => exact ih { m with depth := m.depth - 1 }

/-- A run with the outcome `r` can have `c` as the result of its next step. Where it fails, the activations that are
open then do not matter. -/
def Amounts (p : Program) (limits : Limits) (r : EStateM.Result RuntimeError Machine Value) :
    EStateM.Result RuntimeError Machine Control → Prop
  | .ok (.running s) m => r = s.outcome p limits m
  | .ok (.finished x) m => r = .ok x m
  | .error e m => ∃ d, r = .error e { m with depth := d }

theorem unwind_leave (x : Value) (waiting : List (Activation × ValueId)) (m : Machine) :
    Amounts p limits (unwind p limits waiting (.ok x m)) (leave x waiting m) := by
  cases waiting with
  | nil => exact rfl
  | cons w waiting =>
    obtain ⟨a, dest⟩ := w
    simp only [leave, unwind, surface, bind_apply]
    cases define a.body a.frame dest x { m with depth := m.depth - 1 } with
    | ok f m' => exact rfl
    | error e m' => exact unwind_error waiting e m'

namespace Stack

variable {s : Stack} {g : Region}

theorem outcome_terminate (t : Option Terminator) (m : Machine) :
    Amounts p limits
      (unwind p limits s.waiting ((do
        match ← exit s.top.body s.top.frame s.top.point.region t with
        | .jump target => (s.top.jump target).rest p limits
        | .done x => pure x) m))
      (s.terminate t m) := by
  simp only [terminate, bind_apply]
  cases exit s.top.body s.top.frame s.top.point.region t m with
  | error e m' => exact unwind_error _ e m'
  | ok e m' =>
    cases e with
    | jump target => exact rfl
    | done x => exact unwind_leave x s.waiting m'

theorem outcome_execute (i : Inst) (m : Machine) :
    Amounts p limits
      (unwind p limits s.waiting ((do
        let f ← exec (call p limits) s.top.body s.top.args s.top.frame i
        (s.top.next f).rest p limits) m))
      (s.execute p limits i m) := by
  by_cases hi : ∃ dest callee vs, i = .call dest callee vs
  · obtain ⟨dest, callee, vs, rfl⟩ := hi
    simp only [execute, exec, bind_apply]
    cases readAll s.top.body s.top.frame vs m with
    | error e m₁ => exact unwind_error _ e m₁
    | ok xs m₁ =>
      dsimp only
      rcases enter_cases p limits callee xs m₁ with ⟨e, henter, hcall⟩ | ⟨-, a, henter, hcall⟩
      · rw [henter, hcall]
        exact unwind_error _ e m₁
      · rw [henter, hcall]
        change _ = unwind p limits ((s.top, dest) :: s.waiting) (a.rest p limits { m₁ with depth := m₁.depth + 1 })
        rw [unwind]
        cases surface (a.rest p limits { m₁ with depth := m₁.depth + 1 }) with
        | error e m₂ => rfl
        | ok x m₂ =>
          dsimp only
          rw [bind_apply]
  · have hexec : exec (call p limits) s.top.body s.top.args s.top.frame i =
        exec (fun _ _ => throw default) s.top.body s.top.args s.top.frame i := by
      cases i with
      | call dest callee vs => exact absurd ⟨dest, callee, vs, rfl⟩ hi
      | _ => rfl
    have hexecute : s.execute p limits i = (do
        let f ← exec (fun _ _ => throw default) s.top.body s.top.args s.top.frame i
        pure (.running ⟨s.top.next f, s.waiting⟩)) := by
      cases i with
      | call dest callee vs => exact absurd ⟨dest, callee, vs, rfl⟩ hi
      | _ => rfl
    rw [hexec, hexecute, bind_apply, bind_apply]
    cases exec (fun _ _ => throw default) s.top.body s.top.args s.top.frame i m with
    | error e m' => exact unwind_error _ e m'
    | ok f m' => exact rfl

/-- A step does not change what the run comes to. -/
theorem outcome_step (p : Program) (limits : Limits) (s : Stack) (m : Machine) :
    Amounts p limits (s.outcome p limits m) (s.step p limits m) := by
  unfold outcome step
  cases hg : s.top.region? with
  | none =>
    rw [Activation.rest, run_missing hg]
    exact unwind_error _ _ m
  | some g =>
    dsimp only
    cases hi : g.insts[s.top.point.index]? with
    | some i =>
      rw [Activation.rest, run_inst hg hi, bind_apply, bind_apply]
      cases tick limits m with
      | error e m' => exact unwind_error _ e m'
      | ok _ m' => exact outcome_execute i m'
    | none =>
      rw [Activation.rest, run_exit hg hi, bind_apply, bind_apply]
      cases tick limits m with
      | error e m' => exact unwind_error _ e m'
      | ok _ m' => exact outcome_terminate g.terminator m'

end Stack

end Funclet.Machine
