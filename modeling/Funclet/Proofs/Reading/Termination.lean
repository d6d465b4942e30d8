import Funclet.Proofs.Reading.Silence
import Funclet.Proofs.Reading.Watched

/-!
# The reader comes to an end

* `Change.left_le`, `ConsumesAt.left_lt` : what is left to be consumed never grows, and a step that consumes the current
  token leaves less;
* `Agrees s y x` : from `s`, the watched step `y` has an outcome, that of `x`; it composes (`Agrees.bind`,
  `Agrees.advance`), and passes a guard where less is left (`Agrees.since`);
* `AgreeExpressions`, `AgreeStatements`, `agrees_function` : the reading steps agree with the watched ones wherever the
  depth is enough for what is left;
* `reading_ends` : so every attempt and every text are read to their end, past every guard.
-/

namespace Funclet.Grammar

/-! ## What is left -/

namespace State

theorem left_next_le (s : State) : s.next.left ≤ s.ahead.length := by
  obtain ⟨token, pos, _ | ⟨⟨p, _ | t⟩, items⟩, ending, failed, reports⟩ := s <;> simp only [next, left] <;> grind

theorem left_next_lt {s : State} (h : s.token ≠ .eof) : s.next.left < s.left := by
  have hle := s.left_next_le
  unfold left at hle ⊢
  rw [if_neg h]
  omega

theorem left_next_le_left (s : State) : s.next.left ≤ s.left :=
  s.left_next_le.trans (Nat.le_add_right _ _)

theorem left_skip (s : State) : s.skip.left = s.next.left := by
  unfold skip
  split <;> rfl

/-- The bound on descents is more than what is left can take. -/
theorem left_lt_fuel (s : State) : 4 * s.left + 3 < s.fuel := by
  unfold left fuel
  split <;> omega

end State

theorem Change.left_le {r r' : Reader} (h : Change r r') : r'.state.left ≤ r.state.left := by
  cases h with
  | advance | stumble | stray | reject => exact State.left_next_le_left _
  | fail | report | spoil => exact Nat.le_refl _

theorem Changes.left_le {r r' : Reader} (h : Changes r r') : r'.state.left ≤ r.state.left := by
  induction h with
  | refl => exact Nat.le_refl _
  | tail _ hstep ih => exact hstep.left_le.trans ih

theorem Behaves.left_le {α : Type} {x : Read α} {s s' : State} {a : α} (hx : Behaves none x) (h : x s = .ok a s') :
    s'.left ≤ s.left := by
  have hs := (hx s).left_le
  rwa [h] at hs

theorem ne_eof {t : Token} (h : startsFunction t = false) : t ≠ .eof := by
  rintro rfl
  cases h

theorem left_lt_of_advance {s s' : State} {a : Unit} (ht : s.token ≠ .eof) (h : advance s = .ok a s') :
    s'.left < s.left := by
  unfold advance at h
  split at h <;> cases h
  exact State.left_next_lt ht

theorem ConsumesAt.left_lt {α : Type} {x : Read α} {s : State} (hx : ConsumesAt s.token x) (h : s.token ≠ .eof) :
    (Reader.of (x s)).state.left < s.left := by
  obtain ⟨e, -, hs⟩ := hx s rfl
  exact Nat.lt_of_le_of_lt hs.left_le (State.left_next_lt h)

/-- A search can be cut after its first step. -/
theorem State.skipUntil_skip {stop : Token → Bool} {s : State} (hstop : stop .eof = true) (h : stop s.token = false) :
    s.skipUntil stop = s.skip.skipUntil stop := by
  unfold skipUntil
  rw [skip_ahead]
  rcases hahead : s.ahead with _ | ⟨item, items⟩
  · have htoken : s.skip.token = .eof := by simp [skip, fault?, next, hahead]
    simp [skipFor, h, htoken, hstop]
  · simp [skipFor, h]

theorem State.left_skipUntil_le {stop : Token → Bool} (hstop : ∀ t, stop t = false → startsFunction t = false)
    (s : State) : (s.skipUntil stop).left ≤ s.left := (Changes.skipFor hstop _ s).left_le

/-- A search that does not stop at the current token consumes it. -/
theorem State.left_skipUntil_lt {stop : Token → Bool} (hstop : ∀ t, stop t = false → startsFunction t = false)
    {s : State} (h : stop s.token = false) : (s.skipUntil stop).left < s.left := by
  have heof : stop .eof = true := by
    by_contra hne
    exact absurd (hstop .eof (Bool.eq_false_iff.2 hne)) (by decide)
  rw [skipUntil_skip heof h]
  refine Nat.lt_of_le_of_lt (left_skipUntil_le hstop _) ?_
  rw [left_skip]
  exact left_next_lt (ne_eof (hstop _ h))

theorem State.left_toFunction_le (s : State) : s.toFunction.left ≤ s.left := (Changes.toFunction s).left_le

namespace Watched

/-! ## Steps that agree -/

section Agrees

variable {α β : Type} {s : State}

theorem bind_apply (y : Search α) (g : α → Search β) (s : State) :
    (y >>= g) s =
      match y s with
      | none => none
      | some (.ok a, s') => g a s'
      | some (.error d, s') => some (.error d, s') := by
  change Option.bind (y s) _ = _
  rcases y s with _ | ⟨_ | a, s'⟩ <;> rfl

theorem lift_bind (x : Read α) (f : α → Read β) (s : State) :
    lift (x >>= f) s =
      match x s with
      | .ok a s' => lift (f a) s'
      | .error d s' => some (.error d, s') := by
  have hbind : (x >>= f) s = EStateM.bind x f s := rfl
  unfold lift
  rw [hbind]
  unfold EStateM.bind
  cases x s <;> rfl

/-- A guard is passed where less is left. -/
theorem since_apply {s₀ : State} (h : s.left < s₀.left) (g : Unit → Search α) : (since s₀ >>= g) s = g () s := by
  rw [bind_apply, since, if_pos h]

/-- From `s`, the watched step has an outcome, and it is that of the step. -/
def Agrees (s : State) (y : Search α) (x : Read α) : Prop := y s = lift x s

namespace Agrees

theorem lifted (x : Read α) : Agrees s (lift x) x := rfl

theorem pure (a : α) : Agrees s (pure a) (pure a) := rfl

theorem look {g : State → Search α} {x : Read α} (h : Agrees s (g s) x) : Agrees s (look >>= g) x := h

theorem peek {y : Search α} {f : Token → Read α} (h : Agrees s y (f s.token)) : Agrees s y (peek >>= f) := h

theorem peeks {g : Token → Search α} {f : Token → Read α} (h : Agrees s (g s.token) (f s.token)) :
    Agrees s (lift Grammar.peek >>= g) (Grammar.peek >>= f) := h

theorem here {y : Search α} {f : Pos → Read α} (h : Agrees s y (f s.pos)) : Agrees s y (here >>= f) := h

/-- A step whose depth depends on the state. -/
theorem fueled {y : Search α} {step : Nat → Read α} (h : Agrees s y (step s.fuel)) :
    Agrees s y (fun s => step s.fuel s) := h

theorem follow {y : Search α} {x : Read α} {g : α → Search β} {f : α → Read β} (h : Agrees s y x)
    (hg : ∀ a s', x s = .ok a s' → Agrees s' (g a) (f a)) : Agrees s (y >>= g) (x >>= f) := by
  unfold Agrees at h ⊢
  rw [bind_apply, lift_bind, h]
  unfold lift
  cases hx : x s with
  | ok a s' => exact hg a s' hx
  | error d s' => rfl

/-- Steps that behave leave nothing more to those behind them. -/
theorem bind {y : Search α} {x : Read α} {g : α → Search β} {f : α → Read β} (hx : Behaves none x) (h : Agrees s y x)
    (hg : ∀ a s', s'.left ≤ s.left → Agrees s' (g a) (f a)) : Agrees s (y >>= g) (x >>= f) :=
  h.follow fun a s' hs => hg a s' (hx.left_le hs)

theorem advanceFrom {g : Unit → Search β} {f : Unit → Read β} (ht : s.token ≠ .eof)
    (hg : ∀ s', s'.left < s.left → Agrees s' (g ()) (f ())) : Agrees s (lift advance >>= g) (advance >>= f) :=
  (lifted _).follow fun _ s' hs => hg s' (left_lt_of_advance ht hs)

theorem advance {t : Token} {g : Unit → Search β} {f : Unit → Read β} (ht : s.token = t)
    (hne : startsFunction t = false) (hg : ∀ s', s'.left < s.left → Agrees s' (g ()) (f ())) :
    Agrees s (lift advance >>= g) (Grammar.advance >>= f) :=
  advanceFrom (ht ▸ ne_eof hne) hg

theorem expect {u : Token} {context : Context} {g : Unit → Search β} {f : Unit → Read β}
    (hu : startsFunction u = false) (hg : ∀ s', s'.left < s.left → Agrees s' (g ()) (f ())) :
    Agrees s (lift (expect u context) >>= g) (Grammar.expect u context >>= f) := by
  refine (lifted _).follow fun _ s' hs => hg s' ?_
  change (if s.token = u then Grammar.advance else fail _ : Read Unit) s = _ at hs
  split at hs
  · rename_i ht
    exact left_lt_of_advance (ht ▸ ne_eof hu) hs
  · cases hs

theorem expectName {context : NameContext} {g : String → Search β} {f : String → Read β}
    (hg : ∀ name s', s'.left < s.left → Agrees s' (g name) (f name)) :
    Agrees s (lift (expectName context) >>= g) (Grammar.expectName context >>= f) := by
  refine (lifted _).follow fun name s' hs => hg name s' ?_
  unfold Grammar.expectName at hs
  change EStateM.bind Grammar.peek _ s = _ at hs
  unfold EStateM.bind Grammar.peek at hs
  dsimp only at hs
  cases ht : s.token <;> rw [ht] at hs
  case ident =>
    change EStateM.bind Grammar.advance _ s = _ at hs
    unfold EStateM.bind at hs
    cases ha : Grammar.advance s <;> rw [ha] at hs <;> cases hs
    exact left_lt_of_advance (by simp [ht]) ha
  all_goals cases hs

/-- A step that is taken only where the token `u` can be consumed first. -/
theorem ifIs {u : Token} {g : Unit → Search β} {f : Unit → Read β} {y : Search β} {x : Read β}
    (hu : startsFunction u = false) (hg : ∀ s', s'.left < s.left → Agrees s' (g ()) (f ())) (hy : Agrees s y x) :
    Agrees s (do if (← lift Grammar.peek) = u then (do let a ← lift Grammar.advance; g a) else y)
      (do if (← Grammar.peek) = u then (do let a ← Grammar.advance; f a) else x) := by
  refine peeks ?_
  split
  · rename_i ht
    exact advance ht hu hg
  · exact hy

theorem attempt {y : Search α} {x : Read α} {g : Except Diagnostic α → Search β} {f : Except Diagnostic α → Read β}
    (h : Agrees s y x) (hg : ∀ r s', s'.left ≤ (Reader.of (x s)).state.left → Agrees s' (g r) (f r)) :
    Agrees s (attempt y >>= g) (Grammar.attempt x >>= f) := by
  unfold Agrees at h ⊢
  rw [bind_apply, lift_bind]
  unfold Watched.attempt Grammar.attempt
  rw [h]
  unfold lift
  cases hx : x s with
  | ok a s' => exact hg _ s' (hx ▸ Nat.le_refl _)
  | error d s' => exact hg _ s' (hx ▸ Nat.le_refl _)

theorem update {F : State → State} {g : Unit → Search β} {f : Unit → Read β} (h : Agrees (F s) (g ()) (f ())) :
    Agrees s (lift (update F) >>= g) (Grammar.update F >>= f) := h

theorem since {s₀ : State} {g : Unit → Search α} {x : Read α} (h : s.left < s₀.left) (hg : Agrees s (g ()) x) :
    Agrees s (since s₀ >>= g) x := (since_apply h g).trans hg

end Agrees

end Agrees

/-! ## Searches -/

theorem skipUntil_eq {stop : Token → Bool} (hstop : stop .eof = true) {n : Nat} {s : State} (hn : s.left < n) :
    skipUntil stop n s = some (.ok (), s.skipUntil stop) := by
  induction n generalizing s with
  | zero => exact absurd hn (Nat.not_lt_zero _)
  | succ n ih =>
    unfold skipUntil
    rw [bind_apply]
    dsimp only [look]
    cases h : stop s.token with
    | true => rw [if_pos rfl, skipUntil_of_stop h]; rfl
    | false =>
      have ht : s.token ≠ .eof := fun ht => by simp [ht, hstop] at h
      have hlt : s.skip.left < s.left := s.left_skip ▸ State.left_next_lt ht
      rw [if_neg Bool.false_ne_true, bind_apply]
      dsimp only [lift, update]
      rw [since_apply hlt, State.skipUntil_skip hstop h]
      exact ih (by omega)

theorem Agrees.recover {β : Type} {s : State} {n : Nat} {d : Diagnostic} {g : Unit → Search β} {f : Unit → Read β}
    (hn : s.left < n) (hg : ∀ s', s'.left ≤ s.left → Agrees s' (g ()) (f ())) :
    Agrees s (do
      lift (Grammar.update fun s => { s.report d with failed := true })
      let a ← skipUntil resumes n
      g a) (Grammar.recover d >>= f) := by
  have hs := hg _ (State.left_skipUntil_le (fun _ => startsFunction_of_resumes) { s.report d with failed := true })
  have hskip : skipUntil resumes n { s.report d with failed := true } = some (.ok (), _) := skipUntil_eq rfl hn
  unfold Agrees at hs ⊢
  rw [bind_apply]
  dsimp only [lift, Grammar.update]
  rw [bind_apply, hskip]
  exact hs

/-! ## Expressions -/

/-- Every descent into an expression agrees with the watched one where both depths are enough for what is left. -/
structure AgreeExpressions (ops : Operators) (n m : Nat) : Prop where
  expression : ∀ s, 4 * s.left + 3 ≤ min n m → Agrees s (expression ops n) (expressionFor ops m)
  climb : ∀ least lhs s, 4 * s.left + 2 ≤ min n m → Agrees s (climb ops n least lhs) (climbFor ops m least lhs)
  operand : ∀ s, 4 * s.left + 2 ≤ min n m → Agrees s (operand ops n) (operandFor ops m)
  primary : ∀ s, 4 * s.left + 1 ≤ min n m → Agrees s (primary ops n) (primaryFor ops m)
  arguments : ∀ s, 4 * s.left + 5 ≤ min n m → Agrees s (arguments ops n) (argumentsFor ops m)
  moreArguments : ∀ s, 4 * s.left + 4 ≤ min n m → Agrees s (moreArguments ops n) (moreArgumentsFor ops m)
  bindings : ∀ s, 4 * s.left + 1 ≤ min n m → Agrees s (bindings ops n) (bindingsFor ops m)

namespace AgreeExpressions

variable {ops : Operators} {n m : Nat} {s : State}

theorem climb_succ (ih : AgreeExpressions ops n m) (least : Nat) (lhs : Expr) (h : 4 * s.left + 2 ≤ min n m + 1) :
    Agrees s (Watched.climb ops (n + 1) least lhs) (climbFor ops (m + 1) least lhs) := by
  have hops := behavesExpressions ops m
  unfold Watched.climb climbFor
  refine .look (.peek ?_)
  cases ht : s.token with
  | symbol op =>
    cases hp : ops.precedence? (.symbol op) with
    | none =>
      simp only [hp]
      exact .pure _
    | some precedence =>
      simp only [hp]
      split
      · exact .pure _
      · refine .here (.advance ht rfl fun s₁ h₁ => .since h₁ ?_)
        refine .bind hops.operand (ih.operand s₁ (by omega)) fun operand s₂ h₂ => .peeks ?_
        split
        · refine .since (by omega) (.bind (hops.climb _ _) (ih.climb _ _ s₂ (by omega)) fun rhs s₃ h₃ => ?_)
          exact .since (by omega) (ih.climb _ _ s₃ (by omega))
        · exact .since (by omega) (ih.climb _ _ s₂ (by omega))
  | _ => exact .pure _

theorem operand_succ (ih : AgreeExpressions ops n m) (h : 4 * s.left + 2 ≤ min n m + 1) :
    Agrees s (Watched.operand ops (n + 1)) (operandFor ops (m + 1)) := by
  have hops := behavesExpressions ops m
  unfold Watched.operand operandFor
  refine .look (.here (.peek ?_))
  cases ht : s.token with
  | symbol op =>
    dsimp only
    split
    · refine .advance ht rfl fun s₁ h₁ => .since h₁ ?_
      exact .bind hops.operand (ih.operand s₁ (by omega)) fun operand s₂ h₂ => .pure _
    · exact ih.primary s (by omega)
  | _ => exact ih.primary s (by omega)

theorem primary_succ (ih : AgreeExpressions ops n m) (h : 4 * s.left + 1 ≤ min n m + 1) :
    Agrees s (Watched.primary ops (n + 1)) (primaryFor ops (m + 1)) := by
  have hops := behavesExpressions ops m
  refine .look (.here (.peek ?_))
  cases ht : s.token with
  | number value => exact .advance ht rfl fun s₁ h₁ => .pure _
  | ident name =>
    refine .advance ht rfl fun s₁ h₁ => .ifIs rfl (fun s₂ h₂ => .since (by omega) ?_) (.pure _)
    exact .bind hops.arguments (ih.arguments s₂ (by omega)) fun args s₃ h₃ => .pure _
  | symbol c =>
    dsimp only
    split
    · refine .advance ht rfl fun s₁ h₁ => .since h₁ ?_
      refine .bind hops.expression (ih.expression s₁ (by omega)) fun inner s₂ h₂ => ?_
      exact .expect rfl fun s₃ h₃ => .pure _
    · split
      · refine .advance ht rfl fun s₁ h₁ => .since h₁ ?_
        exact .bind hops.operand (ih.operand s₁ (by omega)) fun operand s₂ h₂ => .pure _
      · exact .lifted _
  | keyword k =>
    cases k with
    | VAR =>
      refine .advance ht rfl fun s₁ h₁ => .since h₁ ?_
      refine .bind hops.bindings (ih.bindings s₁ (by omega)) fun bs s₂ h₂ => .since (by omega) ?_
      exact .bind hops.expression (ih.expression s₂ (by omega)) fun body s₃ h₃ => .pure _
    | _ => exact .lifted _
  | _ => exact .lifted _

theorem moreArguments_succ (ih : AgreeExpressions ops n m) (h : 4 * s.left + 4 ≤ min n m + 1) :
    Agrees s (Watched.moreArguments ops (n + 1)) (moreArgumentsFor ops (m + 1)) := by
  have hops := behavesExpressions ops m
  refine .look (.bind hops.expression (ih.expression s (by omega)) fun arg s₁ h₁ => ?_)
  refine .ifIs rfl (fun s₂ h₂ => .pure _) (.expect rfl fun s₂ h₂ => .since (by omega) ?_)
  exact .bind hops.moreArguments (ih.moreArguments s₂ (by omega)) fun args s₃ h₃ => .pure _

theorem bindings_succ (ih : AgreeExpressions ops n m) (h : 4 * s.left + 1 ≤ min n m + 1) :
    Agrees s (Watched.bindings ops (n + 1)) (bindingsFor ops (m + 1)) := by
  have hops := behavesExpressions ops m
  unfold Watched.bindings bindingsFor
  refine .look (.here (.expectName fun name s₁ h₁ => ?_))
  have hmore (init : Option Expr) (s₂ : State) (h₂ : s₂.left ≤ s₁.left) : Agrees s₂ (do
      if (← lift peek) = .symbol ',' then do
        lift advance
        since s
        let more ← Watched.bindings ops n
        pure (⟨s.pos, name, init⟩ :: more)
      else pure [⟨s.pos, name, init⟩]) (do
      if (← peek) = .symbol ',' then do
        advance
        let more ← bindingsFor ops m
        pure (⟨s.pos, name, init⟩ :: more)
      else pure [⟨s.pos, name, init⟩]) := by
    refine .ifIs rfl (fun s₃ h₃ => .since (by omega) ?_) (.pure _)
    exact .bind hops.bindings (ih.bindings s₃ (by omega)) fun more s₄ h₄ => .pure _
  refine .ifIs rfl (fun s₂ h₂ => .since (by omega) ?_) (hmore none s₁ (Nat.le_refl _))
  exact .bind hops.expression (ih.expression s₂ (by omega)) fun value s₃ h₃ => hmore (some value) s₃ (by omega)

end AgreeExpressions

theorem agreeExpressions (ops : Operators) (n m : Nat) : AgreeExpressions ops n m := by
  induction n generalizing m with
  | zero => constructor <;> intros <;> omega
  | succ n ih =>
    obtain _ | m := m
    · constructor <;> intros <;> omega
    have hops := behavesExpressions ops m
    constructor
    case expression =>
      intro s h
      exact .bind hops.operand ((ih m).operand s (by omega)) fun lhs s₁ h₁ => (ih m).climb 0 lhs s₁ (by omega)
    case climb => exact fun least lhs s h => (ih m).climb_succ least lhs (by omega)
    case operand => exact fun s h => (ih m).operand_succ (by omega)
    case primary => exact fun s h => (ih m).primary_succ (by omega)
    case arguments =>
      exact fun s h => .ifIs rfl (fun s₁ h₁ => .pure _) ((ih m).moreArguments s (by omega))
    case moreArguments => exact fun s h => (ih m).moreArguments_succ (by omega)
    case bindings => exact fun s h => (ih m).bindings_succ (by omega)

/-! ## Statements -/

section Statements

variable {ops : Operators} {n m : Nat} {s : State}

theorem agrees_expression (ops : Operators) (h : 4 * s.left + 3 ≤ n) :
    Agrees s (expression ops n) (Grammar.expression ops) := by
  have hfuel := s.left_lt_fuel
  exact .fueled ((agreeExpressions ops n s.fuel).expression s (by omega))

theorem agrees_bindings (ops : Operators) (h : 4 * s.left + 1 ≤ n) :
    Agrees s (bindings ops n) (Grammar.bindings ops) := by
  have hfuel := s.left_lt_fuel
  exact .fueled ((agreeExpressions ops n s.fuel).bindings s (by omega))

theorem agrees_printItemsFor (ops : Operators) (hn : 4 * s.left + 4 ≤ n) (hm : s.left < m) :
    Agrees s (printItems ops n) (printItemsFor ops m) := by
  induction n generalizing m s with
  | zero => omega
  | succ n ih =>
    obtain _ | m := m
    · omega
    have hmore (item : Expr) (s₁ : State) (h₁ : s₁.left ≤ s.left) : Agrees s₁ (do
        if (← lift peek) = .symbol ',' then do
          lift advance
          since s
          let more ← printItems ops n
          pure (item :: more)
        else pure [item]) (do
        if (← peek) = .symbol ',' then do
          advance
          let more ← printItemsFor ops m
          pure (item :: more)
        else pure [item]) := by
      refine .ifIs rfl (fun s₂ h₂ => .since (by omega) ?_) (.pure _)
      exact .bind (behaves_printItemsFor ops m) (ih (by omega) (by omega)) fun more s₃ h₃ => .pure _
    unfold printItems printItemsFor
    refine .look (.here (.peek ?_))
    cases ht : s.token with
    | text value => exact .advance ht rfl fun s₁ h₁ => hmore _ s₁ (by omega)
    | _ => exact .bind (behaves_expression ops) (agrees_expression ops (by omega)) fun value s₁ h₁ => hmore _ s₁ h₁

theorem agrees_declarationsFor (ops : Operators) (hn : 4 * s.left + 1 ≤ n) (hm : s.left < m) :
    Agrees s (declarations ops n) (declarationsFor ops m) := by
  induction n generalizing m s with
  | zero => omega
  | succ n ih =>
    obtain _ | m := m
    · omega
    unfold declarations declarationsFor
    refine .look (.peek ?_)
    split
    · rename_i ht
      refine .advance ht rfl fun s₁ h₁ => ?_
      refine .bind (behaves_bindings ops) (agrees_bindings ops (by omega)) fun first s₂ h₂ => .since (by omega) ?_
      exact .bind (behaves_declarationsFor ops m) (ih (by omega) (by omega)) fun more s₃ h₃ => .pure _
    · exact .pure _

theorem agrees_printItems (ops : Operators) (h : 4 * s.left + 4 ≤ n) :
    Agrees s (printItems ops n) (Grammar.printItems ops) := by
  have hfuel := s.left_lt_fuel
  exact .fueled (agrees_printItemsFor ops h (by omega))

theorem agrees_declarations (ops : Operators) (h : 4 * s.left + 1 ≤ n) :
    Agrees s (declarations ops n) (Grammar.declarations ops) := by
  have hfuel := s.left_lt_fuel
  exact .fueled (agrees_declarationsFor ops h (by omega))

structure AgreeStatements (ops : Operators) (n m : Nat) : Prop where
  statement : ∀ s, 4 * s.left + 1 ≤ min n m → Agrees s (statement ops n) (statementFor ops m)
  block : ∀ s, 4 * s.left + 2 ≤ min n m → Agrees s (block ops n) (blockFor ops m)

theorem startsStatement_cases {t : Token} (h : startsStatement t = true) :
    (∃ name, t = .ident name) ∨ t = .keyword .RETURN ∨ t = .keyword .PRINT ∨ t = .keyword .CONTINUE ∨
      t = .keyword .IF ∨ t = .keyword .WHILE ∨ t = .keyword .VAR ∨ t = .symbol '{' := by
  cases t with
  | ident name => exact .inl ⟨name, rfl⟩
  | keyword k => cases k <;> simp_all [startsStatement]
  | symbol c => simpa [startsStatement] using h
  | _ => cases h

/-- A token that can start no statement is consumed by both. -/
theorem agrees_stray (h : startsStatement s.token = false) :
    Agrees s (statement ops (n + 1)) (statementFor ops (m + 1)) := by
  unfold statement statementFor
  refine .look ?_
  split
  case h_9 =>
    refine .here (.peek ?_)
    split
    case h_9 => exact (Agrees.lifted stray).follow fun d s' _ => rfl
    all_goals simp_all [startsStatement]
  all_goals simp_all [startsStatement]

theorem AgreeStatements.statement_succ (ih : AgreeStatements ops n m) (h : 4 * s.left + 1 ≤ min n m + 1) :
    Agrees s (Watched.statement ops (n + 1)) (statementFor ops (m + 1)) := by
  cases hstarts : startsStatement s.token with
  | false => exact agrees_stray hstarts
  | true =>
    have hexpr := behaves_expression ops
    obtain ⟨hstmt, hblock⟩ := behaves_statements ops m
    unfold Watched.statement statementFor
    refine .look (.here (.peek ?_))
    rcases startsStatement_cases hstarts with ⟨name, ht⟩ | ht | ht | ht | ht | ht | ht | ht <;> rw [ht]
    · refine .advance ht rfl fun s₁ h₁ => .expect rfl fun s₂ h₂ => ?_
      exact .bind hexpr (agrees_expression ops (by omega)) fun value s₃ h₃ => .pure _
    · refine .advance ht rfl fun s₁ h₁ => ?_
      exact .bind hexpr (agrees_expression ops (by omega)) fun value s₂ h₂ => .pure _
    · refine .advance ht rfl fun s₁ h₁ => ?_
      exact .bind (behaves_printItems ops) (agrees_printItems ops (by omega)) fun items s₂ h₂ => .pure _
    · exact .advance ht rfl fun s₁ h₁ => .pure _
    · have hend (test : Expr) (yes : Stmt) (no : Option Stmt) (s' : State) : Agrees s' (do
          lift (expect (.keyword .FI) .ifEnd)
          pure (Stmt.cond s.pos test yes no)) (do
          expect (.keyword .FI) .ifEnd
          pure (Stmt.cond s.pos test yes no)) := .expect rfl fun s'' _ => .pure _
      refine .advance ht rfl fun s₁ h₁ => ?_
      refine .bind hexpr (agrees_expression ops (by omega)) fun test s₂ h₂ => .expect rfl fun s₃ h₃ => ?_
      refine .since (by omega) (.bind hstmt (ih.statement s₃ (by omega)) fun yes s₄ h₄ => ?_)
      refine .ifIs rfl (fun s₅ h₅ => .since (by omega) ?_) (hend test yes none s₄)
      exact .bind hstmt (ih.statement s₅ (by omega)) fun no s₆ h₆ => hend test yes (some no) s₆
    · refine .advance ht rfl fun s₁ h₁ => ?_
      refine .bind hexpr (agrees_expression ops (by omega)) fun test s₂ h₂ => .expect rfl fun s₃ h₃ => ?_
      refine .since (by omega) (.bind hstmt (ih.statement s₃ (by omega)) fun body s₄ h₄ => ?_)
      exact .expect rfl fun s₅ h₅ => .pure _
    · refine .advance ht rfl fun s₁ h₁ => ?_
      refine .bind (behaves_bindings ops) (agrees_bindings ops (by omega)) fun bs s₂ h₂ => .since (by omega) ?_
      exact .bind hstmt (ih.statement s₂ (by omega)) fun body s₃ h₃ => .pure _
    · refine .advance ht rfl fun s₁ h₁ => ?_
      refine .bind (behaves_declarations ops) (agrees_declarations ops (by omega)) fun declared s₂ h₂ => ?_
      exact .since (by omega) (.bind hblock (ih.block s₂ (by omega)) fun body s₃ h₃ => .pure _)

theorem AgreeStatements.block_succ (ih : AgreeStatements ops n m) (h : 4 * s.left + 2 ≤ min n m + 1) :
    Agrees s (Watched.block ops (n + 1)) (blockFor ops (m + 1)) := by
  obtain ⟨-, hblock⟩ := behaves_statements ops m
  have hconsumes : Consumes (statementFor ops m) := by
    obtain _ | k := m
    · omega
    · exact consumes_statement (behaves_statements ops k).1 (behaves_statements ops k).2
  have hagain (s' : State) (h' : s'.left < s.left) : Agrees s' (do since s; Watched.block ops n) (blockFor ops m) :=
    .since h' (ih.block s' (by omega))
  unfold Watched.block blockFor
  refine .look (.peek ?_)
  split
  · rename_i ht
    exact .advance ht rfl fun s₁ h₁ => .pure _
  · split
    · exact .lifted _
    · rename_i hends
      have hnext : s.next.left < s.left := State.left_next_lt fun ht => hends (.inl ht)
      split
      · exact .update (hagain s.skip (s.left_skip ▸ hnext))
      · split
        · have hlt := (hconsumes s.token).left_lt fun ht => hends (.inl ht)
          refine .attempt (ih.statement s (by omega)) fun outcome s₁ h₁ => ?_
          cases outcome with
          | ok stmt =>
            refine .since (by omega) ?_
            exact .bind hblock (ih.block s₁ (by omega)) fun more s₂ h₂ => .pure _
          | error d => exact .recover (by omega) fun s₂ h₂ => hagain s₂ (by omega)
        · refine (Agrees.lifted stray).follow fun d s₁ h₁ => .update (hagain _ ?_)
          cases h₁
          exact hnext

theorem agreeStatements (ops : Operators) (n m : Nat) : AgreeStatements ops n m := by
  induction n generalizing m with
  | zero => constructor <;> intros <;> omega
  | succ n ih =>
    obtain _ | m := m
    · constructor <;> intros <;> omega
    exact ⟨fun s h => (ih m).statement_succ (by omega), fun s h => (ih m).block_succ (by omega)⟩

theorem agrees_statement (ops : Operators) (h : 4 * s.left + 1 ≤ n) :
    Agrees s (statement ops n) (Grammar.statement ops) := by
  have hfuel := s.left_lt_fuel
  exact .fueled ((agreeStatements ops n s.fuel).statement s (by omega))

end Statements

/-! ## Functions -/

section Functions

variable {n m : Nat} {s : State}

theorem agrees_parametersFor (hn : s.left < n) (hm : s.left < m) : Agrees s (moreParameters n) (parametersFor m) := by
  induction n generalizing m s with
  | zero => omega
  | succ n ih =>
    obtain _ | m := m
    · omega
    unfold moreParameters parametersFor
    refine .look (.expectName fun name s₁ h₁ => .ifIs rfl (fun s₂ h₂ => .pure _) ?_)
    refine .expect rfl fun s₂ h₂ => .since (by omega) ?_
    exact .bind (behaves_parametersFor m) (ih (by omega) (by omega)) fun more s₃ h₃ => .pure _

theorem agrees_prototype (hn : s.left < n) : Agrees s (prototype n) Grammar.prototype := by
  refine .look (.here ?_)
  refine .bind behaves_signature (.lifted _) fun sig s₁ h₁ => .expect rfl fun s₂ h₂ => ?_
  refine .bind behaves_parameters ?_ fun params s₃ h₃ => .pure _
  have hfuel := s₂.left_lt_fuel
  exact .ifIs rfl (fun s₃ h₃ => .pure _) (.fueled (agrees_parametersFor (by omega) (by omega)))

theorem agrees_function (ops : Operators) (ht : s.token = .keyword .FUNC) (hn : 4 * s.left + 1 ≤ n) :
    Agrees s (function ops n) (Grammar.function ops) := by
  refine .advanceFrom (by simp [ht]) fun s₁ h₁ => ?_
  refine .bind behaves_prototype (agrees_prototype (by omega)) fun proto s₂ h₂ => ?_
  exact .bind (.fueled fun k => (behaves_statements ops k).1) (agrees_statement ops (by omega))
    fun body s₃ h₃ => .pure _

theorem toFunction_eq (hn : s.left + 1 < n) : toFunction n s = some (.ok (), s.toFunction) := by
  induction n generalizing s with
  | zero => omega
  | succ n ih =>
    unfold toFunction
    rw [bind_apply]
    dsimp only [look]
    cases hstarts : startsFunction s.token with
    | true =>
      rw [if_pos rfl, toFunction_of_starts hstarts]
      rfl
    | false =>
      rw [if_neg Bool.false_ne_true]
      split
      · rename_i hinvalid
        have hlt : s.skip.left < s.left := s.left_skip ▸ State.left_next_lt (by simp [hinvalid])
        rw [bind_apply]
        dsimp only [lift, update]
        rw [since_apply hlt, ← toFunction_skip hinvalid]
        exact ih (by omega)
      · rename_i hvalid
        generalize hd : Diagnostic.mk (.expectedFunction s.token) s.pos = d
        have hlt : ((s.report d).skipUntil startsFunction).left < s.left :=
          State.left_skipUntil_lt (s := s.report d) (fun _ ht => ht) hstarts
        have hto : s.toFunction = (s.report d).skipUntil startsFunction := by
          unfold State.toFunction
          rw [skipUntil_of_stop (by simpa using hvalid)]
          dsimp only
          rw [if_neg (by simp [hstarts]), hd]
        have hskip : skipUntil startsFunction n (s.report d) = some (.ok (), (s.report d).skipUntil startsFunction) :=
          skipUntil_eq rfl (Nat.lt_of_succ_lt_succ hn)
        rw [bind_apply]
        dsimp only [lift, update]
        rw [hd, bind_apply, hskip]
        dsimp only
        rw [since_apply hlt, hto, ih (by omega), toFunction_of_starts (State.skipUntil_token rfl _)]

/-- A function consumes its `FUNC`, whether or not it can be read. -/
theorem left_function_lt (ops : Operators) (ht : s.token = .keyword .FUNC) :
    (Reader.of (Grammar.function ops s)).state.left < s.left :=
  Nat.lt_of_le_of_lt (changes_function ops s).left_le (State.left_next_lt (by simp [ht]))

theorem nextFunction_eq (ops : Operators) (hn : 4 * s.left + 2 ≤ n) :
    nextFunction ops n s = some (.ok (s.nextFunction ops).1, (s.nextFunction ops).2) := by
  have hle := s.left_toFunction_le
  unfold nextFunction State.nextFunction
  rw [bind_apply, toFunction_eq (by omega)]
  dsimp only
  rw [bind_apply]
  dsimp only [look]
  split
  · rfl
  · rename_i hne
    have htoken := s.toFunction_token.resolve_left hne
    generalize hs₁ : { s.toFunction with failed := false } = s₁
    have htoken₁ : s₁.token = .keyword .FUNC := hs₁ ▸ htoken
    have hleft₁ : s₁.left ≤ s.left := hs₁ ▸ hle
    have hread : function ops n s₁ = lift (Grammar.function ops) s₁ := agrees_function ops htoken₁ (by omega)
    have hlt := left_function_lt ops htoken₁
    rw [bind_apply]
    dsimp only [lift, update]
    rw [hs₁, bind_apply, attempt, hread, lift]
    cases hf : Grammar.function ops s₁ with
    | ok f t => rfl
    | error d t =>
      rw [hf] at hlt
      dsimp only
      rw [bind_apply]
      dsimp only [lift, update]
      have hreport : (t.report d).left < s₁.left := hlt
      rw [bind_apply, skipUntil_eq rfl (by omega)]
      rfl

/-- An attempt that does not find the end of the text has consumed a `FUNC`. -/
theorem left_nextFunction (ops : Operators) (s : State) :
    (s.nextFunction ops).1 = .ended ∨
      s.toFunction.token = .keyword .FUNC ∧ (s.nextFunction ops).2.left < s.toFunction.left := by
  unfold State.nextFunction
  dsimp only
  split
  · exact .inl rfl
  · rename_i hne
    have htoken := s.toFunction_token.resolve_left hne
    have hlt := left_function_lt (s := { s.toFunction with failed := false }) ops htoken
    refine .inr ⟨htoken, ?_⟩
    cases hf : Grammar.function ops { s.toFunction with failed := false } with
    | ok f t =>
      rw [hf] at hlt
      exact hlt
    | error d t =>
      rw [hf] at hlt
      exact Nat.lt_of_le_of_lt (State.left_skipUntil_le (fun _ ht => ht) _) hlt

end Functions

/-! ## Texts -/

section Texts

variable {n m : Nat} {s : State}

/-- What is left for the next attempt is less than what was left for the last one. -/
theorem left_handedOver {ops : Operators} {attempt : Attempt} {s' : State} (h : s.nextFunction ops = (attempt, s'))
    (hne : attempt ≠ .ended) : State.left { s' with reports := [] } < s.toFunction.left := by
  have hlt := ((left_nextFunction ops s).resolve_left (h ▸ hne)).2
  rwa [h] at hlt

theorem outcome_map {α β : Type} {y : Search α} {a : α} (h : (y s).map Prod.fst = some (.ok a)) (F : α → β) :
    ((do let r ← y; pure (F r)) s).map Prod.fst = some (.ok (F a)) := by
  rw [bind_apply]
  rcases hy : y s with _ | ⟨_ | b, t⟩ <;> rw [hy] at h <;> cases h
  rfl

theorem readAll_eq (ops : Operators) (hn : 4 * s.left + 3 ≤ n) (hm : s.toFunction.left < m) :
    (readAll n ops s).map Prod.fst = some (.ok (readFor m ops s)) := by
  induction n generalizing m ops s with
  | zero => omega
  | succ n ih =>
    obtain _ | m := m
    · omega
    have hto := s.left_toFunction_le
    unfold readAll readFor
    rw [bind_apply]
    dsimp only [look]
    rw [bind_apply, nextFunction_eq ops (by omega)]
    dsimp only
    rw [bind_apply]
    dsimp only [handOver]
    -- what is left after an attempt is enough for the attempts behind it
    rcases h : s.nextFunction ops with ⟨f | _ | _, s'⟩
    · have hlt := left_handedOver h (by simp)
      have hnext := State.left_toFunction_le { s' with reports := [] }
      dsimp only
      rw [since_apply (by omega)]
      exact outcome_map (ih _ (by omega) (by omega)) _
    · have hlt := left_handedOver h (by simp)
      have hnext := State.left_toFunction_le { s' with reports := [] }
      dsimp only
      rw [since_apply (by omega)]
      exact outcome_map (ih _ (by omega) (by omega)) _
    · rfl

theorem compileAll_eq (session : Session) (hn : 4 * s.left + 3 ≤ n) (hm : s.toFunction.left < m) :
    (compileAll n session s).map Prod.fst = some (.ok (session.compileFor m s)) := by
  induction n generalizing m session s with
  | zero => omega
  | succ n ih =>
    obtain _ | m := m
    · omega
    have hto := s.left_toFunction_le
    unfold compileAll Session.compileFor Session.readFunction
    rw [bind_apply]
    dsimp only [look]
    rw [bind_apply, nextFunction_eq session.operators (by omega)]
    dsimp only
    rw [bind_apply]
    dsimp only [handOver]
    rcases h : s.nextFunction session.operators with ⟨f | _ | _, s'⟩
    · have hlt := left_handedOver h (by simp)
      have hnext := State.left_toFunction_le { s' with reports := [] }
      dsimp only
      rw [since_apply (by omega)]
      exact outcome_map (ih _ (by omega) (by omega)) _
    · have hlt := left_handedOver h (by simp)
      have hnext := State.left_toFunction_le { s' with reports := [] }
      dsimp only
      rw [since_apply (by omega)]
      exact ih _ (by omega) (by omega)
    · rfl

end Texts

end Watched

/-- The reader comes to an end on every text and with every table of operators, whatever state it is in. Watched, an
attempt to read a function comes to the very same result, so no loop is passed and no descent entered once more before a
lexeme has been consumed; it never goes deeper than a multiple of what is left to be consumed. If it does not find the
end of the text, it has consumed a `FUNC`. The same holds of a whole text that is read or compiled, which has no more
lexemes than characters. -/
theorem reading_ends :
    (∀ (ops : Operators) (s : State),
      (∀ k, Watched.nextFunction ops (4 * s.left + 2 + k) s =
        some (.ok (s.nextFunction ops).1, (s.nextFunction ops).2)) ∧
      ((s.nextFunction ops).1 = .ended ∨
        s.toFunction.token = .keyword .FUNC ∧ (s.nextFunction ops).2.left < s.toFunction.left)) ∧
    ∀ (escapes : Bool) (source : String),
      (scan escapes source).items.length ≤ source.length ∧
      (∀ k, (Watched.readAll (4 * source.length + 7 + k) .initial (.ofScan (scan escapes source))).map Prod.fst =
        some (.ok (readSource escapes source))) ∧
      ∀ (session : Session) (k : Nat),
        (Watched.compileAll (4 * source.length + 7 + k) session (.ofScan (scan escapes source))).map Prod.fst =
          some (.ok (session.compileText escapes source)) := by
  refine ⟨fun ops s => ⟨fun k => ?_, Watched.left_nextFunction ops s⟩, fun escapes source => ?_⟩
  · exact Watched.nextFunction_eq ops (Nat.le_add_right _ _)
  · have hlen := Scan.length_items_le escapes source
    have hleft : (State.ofScan (scan escapes source)).left = (scan escapes source).items.length + 1 := rfl
    have hto : (State.ofScan (scan escapes source)).toFunction.left < (scan escapes source).items.length + 1 := by
      rw [← toFunction_skip rfl]
      refine Nat.lt_of_le_of_lt (State.left_toFunction_le _) ?_
      rw [State.left_skip]
      exact State.left_next_lt (by simp [State.ofScan])
    exact ⟨hlen, fun k => Watched.readAll_eq _ (by omega) hto, fun session k => Watched.compileAll_eq _ (by omega) hto⟩

end Funclet.Grammar
