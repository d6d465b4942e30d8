import Funclet.Machine
import Funclet.Proofs.Lowering.Drafts

/-!
# Runs without bounds

The machine counts steps and activations, and its recursions count down what is left of them. As long as their bounds
are no less than what the limits leave, they do not show.

* `Steady x` : however `x` ends, no step has been taken back, and as many activations are open as before;
* `resume_congr`, `callFor_congr` : the bounds do not matter;
* `run` : the run from a point on; `run_missing`, `run_inst`, `run_exit` : its first step, and `call_apply` : a call,
  all of them without bounds.
-/

namespace Funclet.Machine

variable {α β : Type}

/-! ## Parts of a run -/

def settled (x : Exec α) (m : Machine) : Machine :=
  match x m with
  | .ok _ m' => m'
  | .error _ m' => m'

/-- No step has been taken back, and all activations that were begun are over. -/
def Steady (x : Exec α) : Prop := ∀ m, m.steps ≤ (settled x m).steps ∧ (settled x m).depth = m.depth

theorem bind_apply {ε σ : Type} (x : EStateM ε σ α) (f : α → EStateM ε σ β) (s : σ) :
    (x >>= f) s = match x s with
      | .ok a s' => f a s'
      | .error e s' => .error e s' := by
  change EStateM.bind x f s = _
  unfold EStateM.bind
  cases x s <;> rfl

theorem Steady.of_ok {x : Exec α} (h : Steady x) {m m' : Machine} {a : α} (hx : x m = .ok a m') :
    m.steps ≤ m'.steps ∧ m'.depth = m.depth := by
  have hm := h m
  rwa [settled, hx] at hm

theorem Steady.of_same {x : Exec α} (h : ∀ m, settled x m = m) : Steady x := by
  intro m
  rw [h m]
  exact ⟨Nat.le_refl _, rfl⟩

theorem Steady.pure (a : α) : Steady (pure a : Exec α) := .of_same fun _ => rfl

theorem Steady.throw (e : RuntimeError) : Steady (throw e : Exec α) := .of_same fun _ => rfl

theorem Steady.bind {x : Exec α} {f : α → Exec β} (hx : Steady x) (hf : ∀ a, Steady (f a)) : Steady (x >>= f) := by
  intro m
  have hm := hx m
  simp only [settled, bind_apply] at hm ⊢
  cases h : x m with
  | ok a m' =>
    rw [h] at hm
    have hm' := hf a m'
    exact ⟨Nat.le_trans hm.1 hm'.1, hm'.2.trans hm.2⟩
  | error e m' =>
    rw [h] at hm
    exact hm

theorem steady_tick (limits : Limits) : Steady (tick limits) := by
  intro m
  simp only [settled, tick]
  split <;> rename_i h <;> split at h <;> cases h <;> exact ⟨Nat.le_succ _, rfl⟩

theorem steady_printLine (line : String) : Steady (printLine line) := by
  intro m
  simp only [settled, printLine]
  cases m.output.write line with
  | mk fits output =>
    cases fits with
    | false => exact ⟨Nat.le_refl _, rfl⟩
    | true =>
      dsimp only
      cases output.write "\n" with
      | mk fits' output' => cases fits' <;> exact ⟨Nat.le_refl _, rfl⟩

section Frames

variable (b : Body) (f : Frame)

theorem steady_read (v : ValueId) : Steady (read b f v) := by
  unfold read
  split
  · exact .pure _
  · exact .throw _

theorem steady_readAll (vs : List ValueId) : Steady (readAll b f vs) := by
  induction vs with
  | nil => exact .pure _
  | cons v vs ih => exact (steady_read b f v).bind fun _ => ih.bind fun _ => .pure _

theorem steady_asNumber (use : NumberUse) (x : Value) : Steady (asNumber use x) := by
  cases x with
  | number x => exact .pure _
  | text s => exact .throw _

theorem steady_define (v : ValueId) (x : Value) : Steady (define b f v x) := by
  unfold define
  split
  · exact .pure _
  · exact .throw _

theorem steady_exec {call : FunctionId → List Value → Exec Value} (hcall : ∀ id xs, Steady (call id xs))
    (args : List Value) (i : Inst) : Steady (exec call b args f i) := by
  cases i with
  | const dest c => exact steady_define b f _ _
  | param dest index =>
    simp only [exec]
    split
    · exact steady_define b f _ _
    · exact .throw _
  | load dest slot =>
    simp only [exec]
    split
    · exact steady_define b f _ _
    · exact .throw _
  | store slot v =>
    refine (steady_read b f v).bind fun x => ?_
    split
    · exact .pure _
    · exact .throw _
  | primitive dest op lhs rhs =>
    refine (steady_read b f _).bind fun _ => (steady_asNumber _ _).bind fun _ => (steady_read b f _).bind fun _ =>
      (steady_asNumber _ _).bind fun _ => ?_
    split
    · exact steady_define b f _ _
    · exact .throw _
  | call dest callee vs =>
    exact (steady_readAll b f _).bind fun _ => (hcall _ _).bind fun _ => steady_define b f _ _
  | print vs => exact (steady_readAll b f _).bind fun _ => (steady_printLine _).bind fun _ => .pure _

theorem steady_exit (r : RegionId) (t : Option Terminator) : Steady (exit b f r t) := by
  cases t with
  | none => exact .throw _
  | some t =>
    cases t with
    | ret v => exact (steady_read b f v).bind fun _ => .pure _
    | branch target => exact .pure _
    | branchIf v yes no => exact (steady_read b f v).bind fun _ => (steady_asNumber _ _).bind fun _ => .pure _

end Frames

/-! ## The bound on steps -/

section Resume

variable (limits : Limits) (b : Body) (args : List Value)

theorem steady_resume {call : FunctionId → List Value → Exec Value} (hcall : ∀ id xs, Steady (call id xs)) (fuel : Nat)
    (r : RegionId) (k : Nat) (f : Frame) : Steady (resume limits call b args fuel r k f) := by
  induction fuel generalizing r k f with
  | zero =>
    rw [resume]
    split
    · exact .throw _
    · exact (steady_tick limits).bind fun _ => .throw _
  | succ fuel ih =>
    rw [resume]
    split
    · exact .throw _
    · refine (steady_tick limits).bind fun _ => ?_
      dsimp only
      split
      · exact (steady_exec b f hcall args _).bind fun f' => ih _ _ _
      · refine (steady_exit b f r _).bind fun e => ?_
        cases e with
        | jump target => exact ih _ _ _
        | done x => exact .pure _

variable {b args} {call call' : FunctionId → List Value → Exec Value} {d : Nat}

/-- Only calls at the depth of the machine matter. -/
theorem exec_congr (h : ∀ id xs m, m.depth = d → call id xs m = call' id xs m) {f : Frame} (i : Inst) {m : Machine}
    (hm : m.depth = d) : exec call b args f i m = exec call' b args f i m := by
  cases i with
  | call dest callee vs =>
    simp only [exec, bind_apply]
    cases hx : readAll b f vs m with
    | ok xs m' =>
      dsimp only
      rw [h callee xs m' (((steady_readAll b f vs).of_ok hx).2.trans hm)]
    | error e m' => rfl
  | _ => rfl

theorem tick_ok {m : Machine} (h : m.steps < limits.maxSteps) :
    tick limits m = .ok () { m with steps := m.steps + 1 } :=
  if_neg (Nat.not_lt.mpr h)

theorem tick_error {m : Machine} (h : limits.maxSteps ≤ m.steps) :
    tick limits m = .error (.stepLimit limits.maxSteps) { m with steps := m.steps + 1 } :=
  if_pos (Nat.lt_succ_of_le h)

/-- When all steps are used up, bounds and calls do not matter. -/
theorem resume_spent {fuel fuel' : Nat} {r : RegionId} {k : Nat} {f : Frame} {m : Machine}
    (h : limits.maxSteps ≤ m.steps) :
    resume limits call b args fuel r k f m = resume limits call' b args fuel' r k f m := by
  rw [resume, resume]
  cases b.regions[r]? with
  | none => rfl
  | some region => simp only [bind_apply, tick_error limits h]

/-- A run is the same for all bounds that are no less than what is left of the steps. -/
theorem resume_congr (h : ∀ id xs m, m.depth = d → call id xs m = call' id xs m)
    (hcall : ∀ id xs, Steady (call id xs)) {fuel fuel' : Nat} {r : RegionId} {k : Nat} {f : Frame} {m : Machine}
    (hm : m.depth = d) (hfuel : limits.maxSteps - m.steps ≤ fuel) (hfuel' : limits.maxSteps - m.steps ≤ fuel') :
    resume limits call b args fuel r k f m = resume limits call' b args fuel' r k f m := by
  induction fuel generalizing fuel' r k f m with
  | zero => exact resume_spent limits (Nat.le_of_sub_eq_zero (Nat.le_zero.mp hfuel))
  | succ fuel ih =>
    by_cases hspent : limits.maxSteps ≤ m.steps
    · exact resume_spent limits hspent
    · obtain ⟨fuel', rfl⟩ : ∃ n, fuel' = n + 1 := ⟨fuel' - 1, by omega⟩
      rw [resume, resume]
      cases hregion : b.regions[r]? with
      | none => rfl
      | some region =>
        simp only [bind_apply, tick_ok limits (Nat.lt_of_not_le hspent)]
        cases hinst : region.insts[k]? with
        | some inst =>
          have hexec : exec call b args f inst { m with steps := m.steps + 1 } =
              exec call' b args f inst { m with steps := m.steps + 1 } := exec_congr h inst hm
          simp only [bind_apply, hexec]
          cases hx : exec call' b args f inst { m with steps := m.steps + 1 } with
          | error e m' => rfl
          | ok f' m' =>
            obtain ⟨hsteps, hdepth⟩ := (steady_exec b f hcall args inst).of_ok (hexec.trans hx)
            exact ih (hdepth.trans hm) (by simp at hsteps; omega) (by simp at hsteps; omega)
        | none =>
          simp only [bind_apply]
          cases hx : exit b f r region.terminator { m with steps := m.steps + 1 } with
          | error e m' => rfl
          | ok e m' =>
            obtain ⟨hsteps, hdepth⟩ := (steady_exit b f r region.terminator).of_ok hx
            cases e with
            | done x => rfl
            | jump target => exact ih (hdepth.trans hm) (by simp at hsteps; omega) (by simp at hsteps; omega)

end Resume

/-! ## The bound on activations -/

theorem steady_deeper {x : Exec α} (hx : Steady x) : Steady (deeper x) := by
  intro m
  have hm := hx { m with depth := m.depth + 1 }
  simp only [settled, deeper] at hm ⊢
  cases h : x { m with depth := m.depth + 1 } with
  | ok a m' =>
    rw [h] at hm
    exact ⟨hm.1, Nat.sub_eq_of_eq_add hm.2⟩
  | error e m' =>
    rw [h] at hm
    exact ⟨hm.1, Nat.sub_eq_of_eq_add hm.2⟩

variable (p : Program) (limits : Limits)

theorem steady_callFor (room : Nat) (id : FunctionId) (xs : List Value) : Steady (callFor p limits room id xs) := by
  induction room generalizing id xs with
  | zero =>
    rw [callFor]
    split
    · exact .throw _
    · split
      · refine Steady.bind (.of_same fun _ => rfl) fun m => ?_
        split <;> exact .throw _
      · exact .throw _
  | succ room ih =>
    rw [callFor]
    split
    · exact .throw _
    · split
      · refine Steady.bind (.of_same fun _ => rfl) fun m => ?_
        split
        · exact .throw _
        · exact steady_deeper fun m => steady_resume limits _ _ ih _ _ _ _ m
      · exact .throw _

theorem steady_call (id : FunctionId) (xs : List Value) : Steady (call p limits id xs) :=
  fun m => steady_callFor p limits _ id xs m

variable {p limits}

theorem callFor_apply (room : Nat) (id : FunctionId) (xs : List Value) (m : Machine) :
    callFor p limits room id xs m =
      match p.body? id with
      | none => .error (.undefinedFunction (p.nameOf id)) m
      | some b =>
        if b.params = xs.length then
          if limits.maxCallDepth ≤ m.depth then .error (.stackOverflow limits.maxCallDepth) m
          else match room with
            | 0 => .error (.stackOverflow limits.maxCallDepth) m
            | room + 1 => deeper (activate limits (callFor p limits room) b xs) m
        else .error (.arity b.name b.params xs.length) m := by
  rw [callFor.eq_def]
  dsimp only
  cases p.body? id with
  | none => rfl
  | some b =>
    dsimp only
    by_cases hparams : b.params = xs.length
    · rw [if_pos hparams, if_pos hparams, bind_apply]
      change (if limits.maxCallDepth ≤ m.depth then _ else _ : Exec Value) m = _
      by_cases hdepth : limits.maxCallDepth ≤ m.depth
      · rw [if_pos hdepth, if_pos hdepth]
        rfl
      · rw [if_neg hdepth, if_neg hdepth]
        cases room <;> rfl
    · rw [if_neg hparams, if_neg hparams]
      rfl

theorem deeper_congr {x y : Exec α} {m : Machine}
    (h : x { m with depth := m.depth + 1 } = y { m with depth := m.depth + 1 }) : deeper x m = deeper y m := by
  simp only [deeper, h]

/-- A call is the same for all bounds that are no less than what is left of the depth. -/
theorem callFor_congr {room room' : Nat} {id : FunctionId} {xs : List Value} {m : Machine}
    (hroom : limits.maxCallDepth - m.depth ≤ room) (hroom' : limits.maxCallDepth - m.depth ≤ room') :
    callFor p limits room id xs m = callFor p limits room' id xs m := by
  induction room generalizing room' id xs m with
  | zero =>
    have hdepth := Nat.le_of_sub_eq_zero (Nat.le_zero.mp hroom)
    simp only [callFor_apply, if_pos hdepth]
  | succ room ih =>
    by_cases hdepth : limits.maxCallDepth ≤ m.depth
    · simp only [callFor_apply, if_pos hdepth]
    · obtain ⟨room', rfl⟩ : ∃ n, room' = n + 1 := ⟨room' - 1, by omega⟩
      have hagree : ∀ b : Body, deeper (activate limits (callFor p limits room) b xs) m =
          deeper (activate limits (callFor p limits room') b xs) m := by
        intro b
        refine deeper_congr ?_
        refine resume_congr limits ?_ (steady_callFor p limits room) rfl (Nat.le_refl _) (Nat.le_refl _)
        intro id ys m' hm'
        change m'.depth = m.depth + 1 at hm'
        exact ih (by omega) (by omega)
      simp only [callFor_apply, hagree]

/-- What a call does. -/
theorem call_apply (id : FunctionId) (xs : List Value) (m : Machine) :
    call p limits id xs m =
      match p.body? id with
      | none => .error (.undefinedFunction (p.nameOf id)) m
      | some b =>
        if b.params = xs.length then
          if limits.maxCallDepth ≤ m.depth then .error (.stackOverflow limits.maxCallDepth) m
          else deeper (activate limits (call p limits) b xs) m
        else .error (.arity b.name b.params xs.length) m := by
  rw [call]
  by_cases hdepth : limits.maxCallDepth ≤ m.depth
  · simp only [callFor_apply, if_pos hdepth]
  · obtain ⟨room, hroom⟩ : ∃ n, limits.maxCallDepth - m.depth = n + 1 := ⟨limits.maxCallDepth - m.depth - 1, by omega⟩
    have hagree : ∀ b : Body, deeper (activate limits (callFor p limits room) b xs) m =
        deeper (activate limits (call p limits) b xs) m := by
      intro b
      refine deeper_congr ?_
      refine resume_congr limits ?_ (steady_callFor p limits room) rfl (Nat.le_refl _) (Nat.le_refl _)
      intro id ys m' hm'
      change m'.depth = m.depth + 1 at hm'
      exact callFor_congr (by omega) (Nat.le_refl _)
    simp only [callFor_apply, hroom, hagree]

/-! ## Runs from a point on -/

def run (p : Program) (b : Body) (args : List Value) (limits : Limits) (q : Point) (f : Frame) : Exec Value := fun m =>
  resume limits (call p limits) b args (limits.maxSteps - m.steps) q.region q.index f m

variable {b : Body} {args : List Value} {q : Point} {f : Frame} {g : Region}

/-- A run goes on alike for all bounds that are no less than what is left of the steps. -/
theorem resume_eq_run {fuel : Nat} {m : Machine} (h : limits.maxSteps - m.steps ≤ fuel) :
    resume limits (call p limits) b args fuel q.region q.index f m = run p b args limits q f m :=
  resume_congr limits (fun _ _ _ _ => rfl) (steady_call p limits) rfl h (Nat.le_refl _)

theorem run_inst {i : Inst} (hg : b.regions[q.region]? = some g) (hi : g.insts[q.index]? = some i) :
    run p b args limits q f = (do
      tick limits
      let f' ← exec (call p limits) b args f i
      run p b args limits (q.plus 1) f') := by
  funext m
  rw [run, resume, hg]
  by_cases hspent : limits.maxSteps ≤ m.steps
  · simp only [bind_apply, tick_error limits hspent]
  · obtain ⟨n, hn⟩ : ∃ n, limits.maxSteps - m.steps = n + 1 := ⟨limits.maxSteps - m.steps - 1, by omega⟩
    simp only [hn, bind_apply, tick_ok limits (Nat.lt_of_not_le hspent), hi]
    cases hx : exec (call p limits) b args f i { m with steps := m.steps + 1 } with
    | error e m' => rfl
    | ok f' m' =>
      have hsteps : m.steps + 1 ≤ m'.steps := ((steady_exec b f (steady_call p limits) args i).of_ok hx).1
      exact resume_eq_run (q := q.plus 1) (by omega)

theorem run_missing (hg : b.regions[q.region]? = none) :
    run p b args limits q f = throw (.malformed b.name (.region q.region)) := by
  funext m
  rw [run, resume, hg]

theorem run_exit (hg : b.regions[q.region]? = some g) (hi : g.insts[q.index]? = none) :
    run p b args limits q f = (do
      tick limits
      match ← exit b f q.region g.terminator with
      | .jump target => run p b args limits ⟨target, 0⟩ f
      | .done x => pure x) := by
  funext m
  rw [run, resume, hg]
  by_cases hspent : limits.maxSteps ≤ m.steps
  · simp only [bind_apply, tick_error limits hspent]
  · obtain ⟨n, hn⟩ : ∃ n, limits.maxSteps - m.steps = n + 1 := ⟨limits.maxSteps - m.steps - 1, by omega⟩
    simp only [hn, bind_apply, tick_ok limits (Nat.lt_of_not_le hspent), hi]
    cases hx : exit b f q.region g.terminator { m with steps := m.steps + 1 } with
    | error e m' => rfl
    | ok e m' =>
      have hsteps : m.steps + 1 ≤ m'.steps := ((steady_exit b f _ _).of_ok hx).1
      cases e with
      | done x => rfl
      | jump target => exact resume_eq_run (q := ⟨target, 0⟩) (by omega)

end Funclet.Machine
