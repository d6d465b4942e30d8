import Funclet.Grammar.Function
import Funclet.Proofs.Positions

/-!
# Reading does not depend on positions

* `State.mapPos` : the reader of the same text elsewhere;
* `Uniform m g x y` : where the text is moved by `m`, the step `y` does what `x` does, and gives what `g` makes of the
  result; it composes (`Uniform.bind`);
* `uniform_function` : every reading step is uniform, the failing ones too;
* `State.nextFunction_mapPos` : so is every attempt to read a function.
-/

namespace Funclet.Grammar

variable {m : Pos → Pos}

def State.mapPos (m : Pos → Pos) (s : State) : State where
  token := s.token
  pos := m s.pos
  ahead := s.ahead.map (·.mapPos m)
  ending := m s.ending
  failed := s.failed
  reports := s.reports.map (·.mapPos m)

/-- The outcome of a step, moved; `g` moves its result. -/
def mapResult {α β : Type} (m : Pos → Pos) (g : α → β) :
    EStateM.Result Diagnostic State α → EStateM.Result Diagnostic State β
  | .ok a s => .ok (g a) (s.mapPos m)
  | .error d s => .error (d.mapPos m) (s.mapPos m)

/-- Where the text is moved, `y` does what `x` does. -/
def Uniform {α β : Type} (m : Pos → Pos) (g : α → β) (x : Read α) (y : Read β) : Prop :=
  ∀ s : State, y (s.mapPos m) = mapResult m g (x s)

/-! ## States -/

namespace State

theorem next_mapPos (s : State) : (s.mapPos m).next = s.next.mapPos m := by
  obtain ⟨token, pos, ahead, ending, failed, reports⟩ := s
  rcases ahead with _ | ⟨⟨p, _ | t⟩, items⟩ <;> rfl

theorem fault?_mapPos (s : State) : (s.mapPos m).fault? = s.fault?.map (·.mapPos m) := by
  obtain ⟨token, pos, ahead, ending, failed, reports⟩ := s
  rcases ahead with _ | ⟨⟨p, _ | t⟩, items⟩ <;> rfl

theorem report_mapPos (s : State) (d : Diagnostic) : (s.mapPos m).report (d.mapPos m) = (s.report d).mapPos m := by
  simp [report, mapPos]

theorem skip_mapPos (s : State) : (s.mapPos m).skip = s.skip.mapPos m := by
  unfold skip
  rw [fault?_mapPos, next_mapPos]
  cases s.fault? with
  | none => rfl
  | some d => exact report_mapPos s.next d

theorem skipFor_mapPos (stop : Token → Bool) (n : Nat) (s : State) :
    skipFor stop n (s.mapPos m) = (skipFor stop n s).mapPos m := by
  induction n generalizing s with
  | zero =>
    unfold skipFor
    rw [skip_mapPos]
    exact (apply_ite (State.mapPos m) (stop s.token = true) s s.skip).symm
  | succ n ih =>
    unfold skipFor
    rw [skip_mapPos, ih]
    exact (apply_ite (State.mapPos m) (stop s.token = true) s (skipFor stop n s.skip)).symm

theorem skipUntil_mapPos (stop : Token → Bool) (s : State) :
    (s.mapPos m).skipUntil stop = (s.skipUntil stop).mapPos m := by
  have hlen : (s.mapPos m).ahead.length = s.ahead.length := List.length_map _
  unfold skipUntil
  rw [hlen]
  exact skipFor_mapPos stop _ s

theorem toFunction_mapPos (s : State) : (s.mapPos m).toFunction = s.toFunction.mapPos m := by
  unfold toFunction
  rw [skipUntil_mapPos]
  dsimp only
  generalize s.skipUntil (· ≠ .invalid) = t
  have htoken : (t.mapPos m).token = t.token := rfl
  rw [htoken]
  split
  · rfl
  · have hreport := report_mapPos (m := m) t ⟨.expectedFunction t.token, t.pos⟩
    rw [← skipUntil_mapPos, ← hreport]
    rfl

end State

/-! ## Sequences -/

namespace Uniform

variable {α α' β β' : Type} {g : α → α'} {h : β → β'}

theorem bind {x : Read α} {y : Read α'} {f : α → Read β} {f' : α' → Read β'} (hx : Uniform m g x y)
    (hf : ∀ a, Uniform m h (f a) (f' (g a))) : Uniform m h (x >>= f) (y >>= f') := by
  intro s
  change EStateM.bind y f' (s.mapPos m) = mapResult m h (EStateM.bind x f s)
  unfold EStateM.bind
  rw [hx s]
  cases x s with
  | ok a t => exact hf a t
  | error d t => rfl

theorem pure {a : α} : Uniform m g (pure a) (pure (g a)) := fun _ => rfl

theorem fail {cause : Token → Cause} : Uniform m g (fail cause) (fail cause) := fun _ => rfl

theorem throw {d : Diagnostic} : Uniform m g (throw d) (throw (d.mapPos m)) := fun _ => rfl

theorem peek : Uniform m id peek peek := fun _ => rfl

theorem here : Uniform m m here here := fun _ => rfl

theorem advance : Uniform m id advance advance := by
  intro s
  unfold Grammar.advance
  rw [State.fault?_mapPos, State.next_mapPos]
  cases s.fault? with
  | none => rfl
  | some d => rfl

theorem update {f : State → State} (hf : ∀ s : State, f (s.mapPos m) = (f s).mapPos m) :
    Uniform m id (update f) (update f) := by
  intro s
  change EStateM.Result.ok () (f (s.mapPos m)) = _
  rw [hf]
  rfl

/-- A step whose depth depends on the state. -/
theorem fueled {step : Nat → Read α} {step' : Nat → Read α'} (hs : ∀ n, Uniform m g (step n) (step' n)) :
    Uniform m g (fun s => step s.fuel s) (fun s => step' s.fuel s) := by
  intro s
  have hfuel : (s.mapPos m).fuel = s.fuel := by
    unfold State.fuel State.mapPos
    rw [List.length_map]
  change step' (s.mapPos m).fuel (s.mapPos m) = _
  rw [hfuel]
  exact hs s.fuel s

theorem ite {c : Prop} [Decidable c] {x x' : Read α} {y y' : Read α'} (hx : Uniform m g x y) (hx' : Uniform m g x' y') :
    Uniform m g (if c then x else x') (if c then y else y') := by
  split
  · exact hx
  · exact hx'

/-- A test of the current token. -/
theorem ifIs {t : Token} {x x' : Read α} {y y' : Read α'} (hx : Uniform m g x y) (hx' : Uniform m g x' y') :
    Uniform m g (do if (← Grammar.peek) = t then x else x') (do if (← Grammar.peek) = t then y else y') :=
  peek.bind fun _ => .ite hx hx'

theorem expect (t : Token) (context : Context) : Uniform m id (expect t context) (expect t context) :=
  .ifIs advance .fail

theorem expectName (context : NameContext) : Uniform m id (expectName context) (expectName context) := by
  refine peek.bind fun u => ?_
  cases u with
  | ident name => exact advance.bind fun _ => .pure
  | _ => exact .fail

theorem stray : Uniform m (Diagnostic.mapPos m) stray stray := by
  intro s
  unfold Grammar.stray
  rw [State.fault?_mapPos, State.next_mapPos]
  cases s.fault? with
  | none => rfl
  | some d => rfl

theorem attempt {x : Read α} {y : Read α'} {f : Except Diagnostic α → Read β} {f' : Except Diagnostic α' → Read β'}
    (hx : Uniform m g x y) (hok : ∀ a, Uniform m h (f (.ok a)) (f' (.ok (g a))))
    (herr : ∀ d, Uniform m h (f (.error d)) (f' (.error (d.mapPos m)))) :
    Uniform m h (attempt x >>= f) (attempt y >>= f') := by
  intro s
  change EStateM.bind (Grammar.attempt y) f' (s.mapPos m) = mapResult m h (EStateM.bind (Grammar.attempt x) f s)
  unfold EStateM.bind Grammar.attempt
  rw [hx s]
  cases x s with
  | ok a t => exact hok a t
  | error d t => exact herr d t

end Uniform

/-! ## Expressions -/

structure UniformExpressions (m : Pos → Pos) (ops : Operators) (n : Nat) : Prop where
  expression : Uniform m (Expr.mapPos m) (expressionFor ops n) (expressionFor ops n)
  climb : ∀ least lhs, Uniform m (Expr.mapPos m) (climbFor ops n least lhs) (climbFor ops n least (lhs.mapPos m))
  operand : Uniform m (Expr.mapPos m) (operandFor ops n) (operandFor ops n)
  primary : Uniform m (Expr.mapPos m) (primaryFor ops n) (primaryFor ops n)
  arguments : Uniform m (mapPosExprs m) (argumentsFor ops n) (argumentsFor ops n)
  moreArguments : Uniform m (mapPosExprs m) (moreArgumentsFor ops n) (moreArgumentsFor ops n)
  bindings : Uniform m (mapPosBindings m) (bindingsFor ops n) (bindingsFor ops n)

namespace UniformExpressions

variable {ops : Operators} {n : Nat}

theorem climb_succ (ih : UniformExpressions m ops n) (least : Nat) (lhs : Expr) :
    Uniform m (Expr.mapPos m) (climbFor ops (n + 1) least lhs) (climbFor ops (n + 1) least (lhs.mapPos m)) := by
  unfold climbFor
  refine Uniform.peek.bind fun t => ?_
  cases t with
  | symbol op =>
    dsimp only [id]
    split
    · exact .pure
    · refine .ite .pure (Uniform.here.bind fun pos => Uniform.advance.bind fun _ => ih.operand.bind fun operand => ?_)
      refine Uniform.peek.bind fun u => .ite ?_ ?_
      · exact (ih.climb _ operand).bind fun rhs => ih.climb least (.binary pos op lhs rhs)
      · exact Uniform.bind (g := Expr.mapPos m) .pure fun rhs => ih.climb least (.binary pos op lhs rhs)
  | _ => exact .pure

theorem operand_succ (ih : UniformExpressions m ops n) :
    Uniform m (Expr.mapPos m) (operandFor ops (n + 1)) (operandFor ops (n + 1)) := by
  unfold operandFor
  refine Uniform.here.bind fun pos => Uniform.peek.bind fun t => ?_
  cases t with
  | symbol op =>
    refine .ite (Uniform.advance.bind fun _ => ih.operand.bind fun operand => ?_) ih.primary
    exact Uniform.pure (a := Expr.unary pos op operand)
  | _ => exact ih.primary

theorem primary_succ (ih : UniformExpressions m ops n) :
    Uniform m (Expr.mapPos m) (primaryFor ops (n + 1)) (primaryFor ops (n + 1)) := by
  refine Uniform.here.bind fun pos => Uniform.peek.bind fun t => ?_
  cases t with
  | number value => exact Uniform.advance.bind fun _ => Uniform.pure (a := Expr.number pos value)
  | ident name =>
    refine Uniform.advance.bind fun _ => .ifIs ?_ (Uniform.pure (a := Expr.var pos name))
    exact Uniform.advance.bind fun _ => ih.arguments.bind fun args => Uniform.pure (a := Expr.call pos name args)
  | symbol c =>
    refine .ite ?_ (.ite ?_ .fail)
    · exact Uniform.advance.bind fun _ => ih.expression.bind fun inner => (Uniform.expect _ _).bind fun _ => .pure
    · refine Uniform.advance.bind fun _ => ih.operand.bind fun operand => ?_
      exact Uniform.pure (a := Expr.binary pos '-' (.number pos 0) operand)
  | keyword k =>
    cases k with
    | VAR =>
      refine Uniform.advance.bind fun _ => ih.bindings.bind fun bs => ih.expression.bind fun body => ?_
      exact Uniform.pure (a := Expr.letIn pos bs body)
    | _ => exact .fail
  | _ => exact .fail

theorem moreArguments_succ (ih : UniformExpressions m ops n) :
    Uniform m (mapPosExprs m) (moreArgumentsFor ops (n + 1)) (moreArgumentsFor ops (n + 1)) := by
  refine ih.expression.bind fun arg => .ifIs (Uniform.advance.bind fun _ => Uniform.pure (a := [arg])) ?_
  exact (Uniform.expect _ _).bind fun _ => ih.moreArguments.bind fun args => Uniform.pure (a := arg :: args)

theorem bindings_succ (ih : UniformExpressions m ops n) :
    Uniform m (mapPosBindings m) (bindingsFor ops (n + 1)) (bindingsFor ops (n + 1)) := by
  unfold bindingsFor
  refine Uniform.here.bind fun pos => (Uniform.expectName _).bind fun name => ?_
  have hmore (init : Option Expr) : Uniform m (mapPosBindings m) (do
      if (← peek) = .symbol ',' then do
        advance
        let more ← bindingsFor ops n
        pure (⟨pos, name, init⟩ :: more)
      else pure [⟨pos, name, init⟩]) (do
      if (← peek) = .symbol ',' then do
        advance
        let more ← bindingsFor ops n
        pure (⟨m pos, name, init.map (·.mapPos m)⟩ :: more)
      else pure [⟨m pos, name, init.map (·.mapPos m)⟩]) := by
    have hcons (more : List Binding) : Uniform m (mapPosBindings m) (pure (⟨pos, name, init⟩ :: more))
        (pure (⟨m pos, name, init.map (·.mapPos m)⟩ :: mapPosBindings m more)) := by
      rw [← mapPosBindings_cons]
      exact .pure
    exact .ifIs (Uniform.advance.bind fun _ => ih.bindings.bind fun more => hcons more) (hcons [])
  exact .ifIs (Uniform.advance.bind fun _ => ih.expression.bind fun value => hmore (some value)) (hmore none)

end UniformExpressions

theorem uniformExpressions (m : Pos → Pos) (ops : Operators) (n : Nat) : UniformExpressions m ops n := by
  induction n with
  | zero => exact ⟨.fail, fun _ _ => .fail, .fail, .fail, .fail, .fail, .fail⟩
  | succ n ih =>
    refine ⟨ih.operand.bind fun lhs => ih.climb 0 lhs, ih.climb_succ, ih.operand_succ, ih.primary_succ, ?_,
      ih.moreArguments_succ, ih.bindings_succ⟩
    exact .ifIs (Uniform.advance.bind fun _ => Uniform.pure (a := [])) ih.moreArguments

theorem uniform_expression (ops : Operators) : Uniform m (Expr.mapPos m) (expression ops) (expression ops) :=
  .fueled fun n => (uniformExpressions m ops n).expression

theorem uniform_bindings (ops : Operators) : Uniform m (mapPosBindings m) (bindings ops) (bindings ops) :=
  .fueled fun n => (uniformExpressions m ops n).bindings

/-! ## Statements -/

theorem uniform_printItems (ops : Operators) :
    Uniform m (mapPosExprs m) (printItems ops) (printItems ops) := by
  refine .fueled fun n => ?_
  induction n with
  | zero => exact .fail
  | succ n ih =>
    unfold printItemsFor
    have hmore (i : Expr) : Uniform m (mapPosExprs m) (do
        if (← peek) = .symbol ',' then do
          advance
          let more ← printItemsFor ops n
          pure (i :: more)
        else pure [i]) (do
        if (← peek) = .symbol ',' then do
          advance
          let more ← printItemsFor ops n
          pure (i.mapPos m :: more)
        else pure [i.mapPos m]) :=
      .ifIs (Uniform.advance.bind fun _ => ih.bind fun more => Uniform.pure (a := i :: more)) (Uniform.pure (a := [i]))
    refine Uniform.here.bind fun pos => Uniform.peek.bind fun t => ?_
    cases t with
    | text value => exact Uniform.advance.bind fun _ => hmore (.text pos value)
    | _ => exact (uniform_expression ops).bind hmore

theorem uniform_declarations (ops : Operators) :
    Uniform m (mapPosBindings m) (declarations ops) (declarations ops) := by
  refine .fueled fun n => ?_
  induction n with
  | zero => exact .fail
  | succ n ih =>
    refine .ifIs ?_ (Uniform.pure (a := []))
    refine Uniform.advance.bind fun _ => (uniform_bindings ops).bind fun bs => ih.bind fun more => ?_
    rw [← mapPosBindings_append]
    exact .pure

theorem State.spoil_mapPos (s : State) (d : Diagnostic) :
    { (s.mapPos m).report (d.mapPos m) with failed := true } = { s.report d with failed := true }.mapPos m := by
  simp [report, mapPos]

theorem uniform_recover (d : Diagnostic) : Uniform m id (recover d) (recover (d.mapPos m)) := by
  intro s
  change EStateM.Result.ok () (State.skipUntil resumes { (s.mapPos m).report (d.mapPos m) with failed := true }) = _
  rw [State.spoil_mapPos, State.skipUntil_mapPos]
  rfl

section Statements

variable {ops : Operators} {n : Nat} (hstmt : Uniform m (Stmt.mapPos m) (statementFor ops n) (statementFor ops n))
  (hblock : Uniform m (mapPosStmts m) (blockFor ops n) (blockFor ops n))

include hstmt hblock

theorem uniform_statement_succ : Uniform m (Stmt.mapPos m) (statementFor ops (n + 1)) (statementFor ops (n + 1)) := by
  have hexpr := uniform_expression (m := m) ops
  unfold statementFor
  refine Uniform.here.bind fun pos => Uniform.peek.bind fun t => ?_
  dsimp only [id]
  split
  · rename_i name
    refine Uniform.advance.bind fun _ => (Uniform.expect _ _).bind fun _ => hexpr.bind fun value => ?_
    exact Uniform.pure (a := Stmt.assign pos name value)
  · exact Uniform.advance.bind fun _ => hexpr.bind fun value => Uniform.pure (a := Stmt.ret pos value)
  · refine Uniform.advance.bind fun _ => (uniform_printItems ops).bind fun items => ?_
    exact Uniform.pure (a := Stmt.print pos items)
  · exact Uniform.advance.bind fun _ => Uniform.pure (a := Stmt.again pos)
  · refine Uniform.advance.bind fun _ => hexpr.bind fun test => (Uniform.expect _ _).bind fun _ =>
      hstmt.bind fun yes => ?_
    have hend (no : Option Stmt) : Uniform m (Stmt.mapPos m) (do
        expect (.keyword .FI) .ifEnd
        pure (Stmt.cond pos test yes no)) (do
        expect (.keyword .FI) .ifEnd
        pure (Stmt.cond (m pos) (test.mapPos m) (yes.mapPos m) (no.map (·.mapPos m)))) := by
      refine (Uniform.expect _ _).bind fun _ => ?_
      rw [← Stmt.mapPos_cond]
      exact .pure
    exact .ifIs (Uniform.advance.bind fun _ => hstmt.bind fun no => hend (some no)) (hend none)
  · refine Uniform.advance.bind fun _ => hexpr.bind fun test => (Uniform.expect _ _).bind fun _ =>
      hstmt.bind fun body => (Uniform.expect _ _).bind fun _ => ?_
    exact Uniform.pure (a := Stmt.loop pos test body)
  · refine Uniform.advance.bind fun _ => (uniform_bindings ops).bind fun bs => hstmt.bind fun body => ?_
    exact Uniform.pure (a := Stmt.letIn pos bs body)
  · refine Uniform.advance.bind fun _ => (uniform_declarations ops).bind fun declared => hblock.bind fun body => ?_
    exact Uniform.pure (a := Stmt.block pos declared body)
  · exact Uniform.stray.bind fun _ => .throw

theorem uniform_block_succ : Uniform m (mapPosStmts m) (blockFor ops (n + 1)) (blockFor ops (n + 1)) := by
  unfold blockFor
  refine Uniform.peek.bind fun t => .ite (Uniform.advance.bind fun _ => Uniform.pure (a := [])) (.ite .fail ?_)
  refine .ite ((Uniform.update State.skip_mapPos).bind fun _ => hblock) (.ite ?_ ?_)
  · refine hstmt.attempt (fun stmt => hblock.bind fun more => ?_) fun d => (uniform_recover d).bind fun _ => hblock
    exact Uniform.pure (a := stmt :: more)
  · refine Uniform.stray.bind fun d => Uniform.bind (g := id) ?_ fun _ => hblock
    intro s
    change EStateM.Result.ok () { (s.mapPos m).report (d.mapPos m) with failed := true } = _
    rw [State.spoil_mapPos]
    rfl

end Statements

theorem uniform_statements (m : Pos → Pos) (ops : Operators) (n : Nat) :
    Uniform m (Stmt.mapPos m) (statementFor ops n) (statementFor ops n) ∧
      Uniform m (mapPosStmts m) (blockFor ops n) (blockFor ops n) := by
  induction n with
  | zero => exact ⟨.fail, .fail⟩
  | succ n ih => exact ⟨uniform_statement_succ ih.1 ih.2, uniform_block_succ ih.1 ih.2⟩

/-! ## Functions -/

theorem uniform_operatorSymbol : Uniform m id operatorSymbol operatorSymbol := by
  refine Uniform.peek.bind fun t => ?_
  cases t with
  | symbol c => exact .ite .fail (Uniform.advance.bind fun _ => .pure)
  | _ => exact .fail

theorem uniform_precedence : Uniform m id precedence precedence := by
  refine Uniform.peek.bind fun t => ?_
  cases t with
  | number x =>
    refine Uniform.here.bind fun pos => Uniform.advance.bind fun _ => ?_
    split
    · exact .pure
    · exact .throw
  | _ => exact .pure

theorem uniform_signature : Uniform m id signature signature := by
  refine Uniform.peek.bind fun t => ?_
  cases t with
  | ident name => exact Uniform.advance.bind fun _ => .pure
  | keyword k =>
    cases k with
    | unary => exact Uniform.advance.bind fun _ => uniform_operatorSymbol.bind fun op => .pure
    | binary =>
      exact Uniform.advance.bind fun _ => uniform_operatorSymbol.bind fun op => uniform_precedence.bind fun p => .pure
    | _ => exact .fail
  | _ => exact .fail

theorem uniform_parameters : Uniform m id parameters parameters := by
  have hfor (n : Nat) : Uniform m id (parametersFor n) (parametersFor n) := by
    induction n with
    | zero => exact .fail
    | succ n ih =>
      refine (Uniform.expectName _).bind fun name => .ifIs (Uniform.advance.bind fun _ => .pure) ?_
      exact (Uniform.expect _ _).bind fun _ => ih.bind fun more => .pure
  exact .ifIs (Uniform.advance.bind fun _ => .pure) (.fueled hfor)

theorem uniform_function (ops : Operators) : Uniform m (Function.mapPos m) (function ops) (function ops) := by
  have hproto : Uniform m (Prototype.mapPos m) prototype prototype :=
    Uniform.here.bind fun pos => uniform_signature.bind fun sig => (Uniform.expect _ _).bind fun _ =>
      uniform_parameters.bind fun params => Uniform.pure (a := (⟨pos, sig.1, params, sig.2⟩ : Prototype))
  refine Uniform.advance.bind fun _ => hproto.bind fun proto => ?_
  refine (Uniform.fueled fun n => (uniform_statements m ops n).1).bind fun body => ?_
  exact Uniform.pure (a := (⟨proto, body⟩ : Function))

/-! ## Attempts -/

def Attempt.mapPos (m : Pos → Pos) : Attempt → Attempt
  | .function f => .function (f.mapPos m)
  | .failed => .failed
  | .ended => .ended

/-- An attempt elsewhere comes to the same, elsewhere. -/
theorem State.nextFunction_mapPos (ops : Operators) (s : State) :
    (s.mapPos m).nextFunction ops = ((s.nextFunction ops).1.mapPos m, (s.nextFunction ops).2.mapPos m) := by
  unfold nextFunction
  rw [toFunction_mapPos]
  dsimp only
  generalize s.toFunction = t
  by_cases heof : t.token = .eof
  · rw [if_pos heof, if_pos (show (t.mapPos m).token = .eof from heof)]
    rfl
  · have hbegin : { t.mapPos m with failed := false } = State.mapPos m { t with failed := false } := rfl
    rw [if_neg heof, if_neg (show (t.mapPos m).token ≠ .eof from heof), hbegin, uniform_function ops]
    cases function ops { t with failed := false } with
    | ok f u =>
      dsimp only [mapResult]
      have hfailed : (u.mapPos m).failed = u.failed := rfl
      rw [hfailed]
      split <;> rfl
    | error d u =>
      dsimp only [mapResult]
      rw [report_mapPos, skipUntil_mapPos]
      rfl

end Funclet.Grammar
