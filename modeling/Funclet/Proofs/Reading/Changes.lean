import Mathlib.Logic.Relation
import Funclet.Grammar.Function

/-!
# What a reader can do

* `Reader`, `Change` : a reader at work, and everything that it can do in one go: consume a token, find something
  wrong, or report what it has found;
* `Behaves e step` : whatever comes of `step`, it comes of such changes, where `e` was about to be reported before it;
  it composes (`Behaves.bind`);
* `behaves_expression` … `behaves_prototype` : every reading step behaves, whatever stands ahead;
* `Changes.toFunction`, `changes_function` : so do the two halves of an attempt to read a function. Between them, the
  reader consumes a `FUNC`, which it does nowhere else without a report.
-/

namespace Funclet.Grammar

/-- A reader at work: its state, and the error that it is about to report. -/
structure Reader where
  state : State
  error : Option Diagnostic

def Reader.of {α : Type} : EStateM.Result Diagnostic State α → Reader
  | .ok _ s => ⟨s, none⟩
  | .error d s => ⟨s, some d⟩

/-- What a reader can do in one go. -/
inductive Change : Reader → Reader → Prop
  /-- It consumes a token. -/
  | advance {s : State} (ht : startsFunction s.token = false) (h : s.fault? = none) : Change ⟨s, none⟩ ⟨s.next, none⟩
  /-- It consumes a token, and behind it the text spells none. -/
  | stumble {s : State} {d : Diagnostic} (ht : startsFunction s.token = false) (h : s.fault? = some d) :
      Change ⟨s, none⟩ ⟨s.next, some d⟩
  /-- The current token is not one that can stand there. -/
  | fail {s : State} {cause : Cause} (h : cause.stage = .parser) : Change ⟨s, none⟩ ⟨s, some ⟨cause, s.pos⟩⟩
  /-- It consumes a token that can start no statement. -/
  | stray {s : State} : Change ⟨s, none⟩ ⟨s.next, some (s.fault?.getD ⟨.notStatement s.token, s.pos⟩)⟩
  /-- It consumes a number that is no precedence. -/
  | reject {s : State} {x : Float} (ht : s.token = .number x) :
      Change ⟨s, none⟩ ⟨s.next, some ⟨.invalidPrecedence x, s.pos⟩⟩
  | report {s : State} {d : Diagnostic} : Change ⟨s, some d⟩ ⟨s.report d, none⟩
  /-- It reports an error of a statement and goes on with the function. -/
  | spoil {s : State} {d : Diagnostic} : Change ⟨s, some d⟩ ⟨{ s.report d with failed := true }, none⟩

abbrev Changes : Reader → Reader → Prop := Relation.ReflTransGen Change

/-- Whatever comes of `step`, it comes of changes, where `e` was about to be reported before it. -/
def Behaves {α : Type} (e : Option Diagnostic) (step : Read α) : Prop := ∀ s, Changes ⟨s, e⟩ (.of (step s))

def BehavesAt {α : Type} (t : Token) (step : Read α) : Prop := ∀ s, s.token = t → Changes ⟨s, none⟩ (.of (step s))

/-- The step consumes the current token first, where that is `t`. -/
def ConsumesAt {α : Type} (t : Token) (step : Read α) : Prop :=
  ∀ s, s.token = t → ∃ e, Change ⟨s, none⟩ ⟨s.next, e⟩ ∧ Changes ⟨s.next, e⟩ (.of (step s))

def Consumes {α : Type} (step : Read α) : Prop := ∀ t, ConsumesAt t step

namespace State

theorem next_ahead (s : State) : s.next.ahead = s.ahead.tail := by
  unfold next
  split <;> simp_all

theorem next_failed (s : State) : s.next.failed = s.failed := by
  unfold next
  split <;> rfl

theorem reports_next (s : State) : s.next.reports = s.reports := by
  unfold next
  split <;> rfl

end State

/-! ## Searches -/

namespace Changes

theorem skip {s : State} (h : startsFunction s.token = false) : Changes ⟨s, none⟩ ⟨s.skip, none⟩ := by
  unfold State.skip
  split
  · exact .single (.advance h ‹_›)
  · exact (Relation.ReflTransGen.single (.stumble h ‹_›)).tail .report

theorem skipFor {stop : Token → Bool} (hstop : ∀ t, stop t = false → startsFunction t = false) (n : Nat) (s : State) :
    Changes ⟨s, none⟩ ⟨s.skipFor stop n, none⟩ := by
  have hskip {s : State} (h : ¬stop s.token = true) : Changes ⟨s, none⟩ ⟨s.skip, none⟩ :=
    skip (hstop _ (Bool.eq_false_iff.2 h))
  induction n generalizing s with
  | zero =>
    unfold State.skipFor
    split
    · exact .refl
    · exact hskip ‹_›
  | succ n ih =>
    unfold State.skipFor
    split
    · exact .refl
    · exact (hskip ‹_›).trans (ih s.skip)

/-- A reader looks for the next function, and reports the first token that does not belong there. -/
theorem toFunction (s : State) : Changes ⟨s, none⟩ ⟨s.toFunction, none⟩ := by
  have hskip : Changes ⟨s, none⟩ ⟨s.skipUntil (· ≠ .invalid), none⟩ := by
    refine skipFor (fun t ht => ?_) _ s
    have ht : t = .invalid := by simpa using ht
    rw [ht]
    rfl
  unfold State.toFunction
  dsimp only
  split
  · exact hskip
  · exact ((hskip.tail (.fail rfl)).tail .report).trans (skipFor (fun _ ht => ht) _ _)

end Changes

theorem startsFunction_of_resumes {t : Token} (h : resumes t = false) : startsFunction t = false := by
  cases t with
  | keyword k => cases k <;> first | rfl | cases h
  | eof => cases h
  | _ => rfl

/-! ## Sequences -/

section Sequences

variable {α β : Type} {e : Option Diagnostic} {t : Token}

/-- What comes of a step is followed by what comes of the next one, unless it fails. -/
theorem Changes.bind {r : Reader} {s : State} {x : Read α} {f : α → Read β} (hx : Changes r (.of (x s)))
    (hf : ∀ a, Behaves none (f a)) : Changes r (.of ((x >>= f) s)) := by
  change Changes r (.of (EStateM.bind x f s))
  unfold EStateM.bind
  cases h : x s with
  | ok a s' =>
    rw [h] at hx
    exact hx.trans (hf a s')
  | error d s' =>
    rw [h] at hx
    exact hx

theorem Behaves.bind {x : Read α} {f : α → Read β} (hx : Behaves e x) (hf : ∀ a, Behaves none (f a)) :
    Behaves e (x >>= f) := fun s => (hx s).bind hf

theorem BehavesAt.bind {x : Read α} {f : α → Read β} (hx : BehavesAt t x) (hf : ∀ a, Behaves none (f a)) :
    BehavesAt t (x >>= f) := fun s ht => (hx s ht).bind hf

theorem Behaves.everywhere {x : Read α} (hx : Behaves none x) : BehavesAt t x := fun s _ => hx s

theorem Behaves.peek {f : Token → Read β} (hf : ∀ t, BehavesAt t (f t)) : Behaves none (peek >>= f) :=
  fun s => hf s.token s rfl

theorem Behaves.here {f : Pos → Read β} (hf : ∀ p, Behaves none (f p)) : Behaves none (here >>= f) :=
  fun s => hf s.pos s

theorem BehavesAt.here {f : Pos → Read β} (hf : ∀ p, BehavesAt t (f p)) : BehavesAt t (here >>= f) :=
  fun s ht => hf s.pos s ht

theorem Behaves.pure (a : α) : Behaves none (pure a : Read α) := fun _ => .refl

theorem Behaves.fail {cause : Token → Cause} (h : ∀ t, (cause t).stage = .parser) :
    Behaves none (fail cause : Read α) := fun s => .single (.fail (h s.token))

theorem Behaves.throw {d : Diagnostic} : Behaves (some d) (throw d : Read α) := fun _ => .refl

theorem ConsumesAt.advance (ht : startsFunction t = false) : ConsumesAt t advance := by
  rintro s rfl
  unfold Grammar.advance
  cases h : s.fault? with
  | none => exact ⟨none, .advance ht h, .refl⟩
  | some d => exact ⟨some d, .stumble ht h, .refl⟩

theorem ConsumesAt.bind {x : Read α} {f : α → Read β} (hx : ConsumesAt t x) (hf : ∀ a, Behaves none (f a)) :
    ConsumesAt t (x >>= f) := by
  intro s ht
  obtain ⟨e, hchange, hs⟩ := hx s ht
  exact ⟨e, hchange, hs.bind hf⟩

theorem ConsumesAt.stray {f : Diagnostic → Read β} (hf : ∀ d, Behaves (some d) (f d)) :
    ConsumesAt t (stray >>= f) := fun s _ => ⟨_, .stray, hf _ s.next⟩

theorem Consumes.here {f : Pos → Read β} (hf : ∀ p, Consumes (f p)) : Consumes (here >>= f) :=
  fun t s ht => hf s.pos t s ht

theorem Consumes.peek {f : Token → Read β} (hf : ∀ t, ConsumesAt t (f t)) : Consumes (peek >>= f) := by
  rintro t s rfl
  exact hf s.token s rfl

theorem ConsumesAt.behavesAt {x : Read α} (hx : ConsumesAt t x) : BehavesAt t x := by
  intro s ht
  obtain ⟨e, hchange, hs⟩ := hx s ht
  exact .head hchange hs

theorem Consumes.behaves {x : Read α} (hx : Consumes x) : Behaves none x := fun s => (hx s.token).behavesAt s rfl

theorem BehavesAt.advance (ht : startsFunction t = false) : BehavesAt t advance := (ConsumesAt.advance ht).behavesAt

/-- An error that is not passed on is about to be reported. -/
theorem Behaves.attempt {x : Read α} {f : Except Diagnostic α → Read β} (hx : Behaves none x)
    (hok : ∀ a, Behaves none (f (.ok a))) (herr : ∀ d, Behaves (some d) (f (.error d))) :
    Behaves none (attempt x >>= f) := by
  intro s
  have hs := hx s
  change Changes ⟨s, none⟩ (.of (EStateM.bind (Grammar.attempt x) f s))
  unfold EStateM.bind Grammar.attempt
  cases h : x s with
  | ok a s' =>
    rw [h] at hs
    exact hs.trans (hok a s')
  | error d s' =>
    rw [h] at hs
    exact hs.trans (herr d s')

/-- A step whose depth depends on the state. -/
theorem Behaves.fueled {step : Nat → Read α} (h : ∀ n, Behaves none (step n)) :
    Behaves none (fun s => step s.fuel s) := fun s => h s.fuel s

theorem Behaves.expect {u : Token} {context : Context} (hu : startsFunction u = false) :
    Behaves none (expect u context) := by
  refine .peek fun t => ?_
  split
  · rename_i ht
    exact .advance (ht ▸ hu)
  · exact (Behaves.fail fun _ => rfl).everywhere

theorem Behaves.expectName {context : NameContext} : Behaves none (expectName context) := by
  refine .peek fun t => ?_
  split
  · exact (BehavesAt.advance rfl).bind fun _ => .pure _
  · exact (Behaves.fail fun _ => rfl).everywhere

/-- A step that is taken only where the token `u` can be consumed first. -/
theorem Behaves.ifIs {u : Token} (hu : startsFunction u = false) {x : Unit → Read β} {y : Read β}
    (hx : Behaves none (x ())) (hy : Behaves none y) :
    Behaves none (do if (← Grammar.peek) = u then (do let a ← Grammar.advance; x a) else y) := by
  refine .peek fun t => ?_
  split
  · rename_i ht
    exact (BehavesAt.advance (ht ▸ hu)).bind fun _ => hx
  · exact hy.everywhere

end Sequences

/-! ## Expressions -/

structure BehavesExpressions (ops : Operators) (n : Nat) : Prop where
  expression : Behaves none (expressionFor ops n)
  climb : ∀ least lhs, Behaves none (climbFor ops n least lhs)
  operand : Behaves none (operandFor ops n)
  primary : Behaves none (primaryFor ops n)
  arguments : Behaves none (argumentsFor ops n)
  moreArguments : Behaves none (moreArgumentsFor ops n)
  bindings : Behaves none (bindingsFor ops n)

namespace BehavesExpressions

variable {ops : Operators} {n : Nat}

theorem climb_succ (ih : BehavesExpressions ops n) (least : Nat) (lhs : Expr) :
    Behaves none (climbFor ops (n + 1) least lhs) := by
  unfold climbFor
  refine .peek fun t => ?_
  split
  · split
    · exact (Behaves.pure _).everywhere
    · split
      · exact (Behaves.pure _).everywhere
      · refine .here fun pos => (BehavesAt.advance rfl).bind fun _ => ih.operand.bind fun operand => .peek fun u => ?_
        split
        · exact ((ih.climb _ _).bind fun rhs => ih.climb _ _).everywhere
        · exact ((Behaves.pure _).bind fun rhs => ih.climb _ _).everywhere
  · exact (Behaves.pure _).everywhere

theorem operand_succ (ih : BehavesExpressions ops n) : Behaves none (operandFor ops (n + 1)) := by
  unfold operandFor
  refine .here fun pos => .peek fun t => ?_
  split
  · split
    · exact (BehavesAt.advance rfl).bind fun _ => ih.operand.bind fun operand => .pure _
    · exact ih.primary.everywhere
  · exact ih.primary.everywhere

theorem primary_succ (ih : BehavesExpressions ops n) : Behaves none (primaryFor ops (n + 1)) := by
  have hfail {t : Token} : BehavesAt t (fail .notExpression : Read Expr) := (Behaves.fail fun _ => rfl).everywhere
  refine Behaves.here fun pos => .peek fun t => ?_
  cases t with
  | number value => exact (BehavesAt.advance rfl).bind fun _ => .pure _
  | ident name =>
    exact (BehavesAt.advance rfl).bind fun _ => .ifIs rfl (ih.arguments.bind fun args => .pure _) (.pure _)
  | symbol c =>
    dsimp only
    split
    · exact (BehavesAt.advance rfl).bind fun _ => ih.expression.bind fun inner =>
        (Behaves.expect rfl).bind fun _ => .pure _
    · split
      · exact (BehavesAt.advance rfl).bind fun _ => ih.operand.bind fun operand => .pure _
      · exact hfail
  | keyword k =>
    cases k with
    | VAR =>
      exact (BehavesAt.advance rfl).bind fun _ => ih.bindings.bind fun bs => ih.expression.bind fun body => .pure _
    | _ => exact hfail
  | _ => exact hfail

theorem moreArguments_succ (ih : BehavesExpressions ops n) : Behaves none (moreArgumentsFor ops (n + 1)) := by
  refine ih.expression.bind fun arg => .ifIs rfl (.pure _) ?_
  exact (Behaves.expect rfl).bind fun _ => ih.moreArguments.bind fun args => .pure _

theorem bindings_succ (ih : BehavesExpressions ops n) : Behaves none (bindingsFor ops (n + 1)) := by
  unfold bindingsFor
  refine .here fun pos => Behaves.expectName.bind fun name => ?_
  have hmore (init : Option Expr) : Behaves none (do
      if (← peek) = .symbol ',' then do
        advance
        let more ← bindingsFor ops n
        pure (⟨pos, name, init⟩ :: more)
      else pure [⟨pos, name, init⟩]) := .ifIs rfl (ih.bindings.bind fun more => .pure _) (.pure _)
  exact .ifIs rfl (ih.expression.bind fun value => hmore (some value)) (hmore none)

end BehavesExpressions

theorem behavesExpressions (ops : Operators) (n : Nat) : BehavesExpressions ops n := by
  induction n with
  | zero =>
    exact ⟨.fail fun _ => rfl, fun _ _ => .fail fun _ => rfl, .fail fun _ => rfl, .fail fun _ => rfl,
      .fail fun _ => rfl, .fail fun _ => rfl, .fail fun _ => rfl⟩
  | succ n ih =>
    exact ⟨ih.operand.bind fun lhs => ih.climb 0 lhs, ih.climb_succ, ih.operand_succ, ih.primary_succ,
      .ifIs rfl (.pure _) ih.moreArguments, ih.moreArguments_succ, ih.bindings_succ⟩

theorem behaves_expression (ops : Operators) : Behaves none (expression ops) :=
  .fueled fun n => (behavesExpressions ops n).expression

theorem behaves_bindings (ops : Operators) : Behaves none (bindings ops) :=
  .fueled fun n => (behavesExpressions ops n).bindings

/-! ## Statements -/

theorem behaves_printItemsFor (ops : Operators) (n : Nat) : Behaves none (printItemsFor ops n) := by
  induction n with
  | zero => exact .fail fun _ => rfl
  | succ n ih =>
    unfold printItemsFor
    have hmore (item : Expr) : Behaves none (do
        if (← peek) = .symbol ',' then do
          advance
          let more ← printItemsFor ops n
          pure (item :: more)
        else pure [item]) := .ifIs rfl (ih.bind fun more => .pure _) (.pure _)
    refine .here fun pos => .peek fun t => ?_
    split
    · exact (BehavesAt.advance rfl).bind fun _ => hmore _
    · exact ((behaves_expression ops).bind fun value => hmore _).everywhere

theorem behaves_printItems (ops : Operators) : Behaves none (printItems ops) := .fueled (behaves_printItemsFor ops)

theorem behaves_declarationsFor (ops : Operators) (n : Nat) : Behaves none (declarationsFor ops n) := by
  induction n with
  | zero => exact .fail fun _ => rfl
  | succ n ih => exact .ifIs rfl ((behaves_bindings ops).bind fun first => ih.bind fun more => .pure _) (.pure _)

theorem behaves_declarations (ops : Operators) : Behaves none (declarations ops) :=
  .fueled (behaves_declarationsFor ops)

theorem behaves_recover (d : Diagnostic) : Behaves (some d) (recover d) :=
  fun _ => .head .spoil (Changes.skipFor (fun _ => startsFunction_of_resumes) _ _)

section Statements

variable {ops : Operators} {n : Nat}

/-- A statement consumes the token that it starts with, even if none can start with it. -/
theorem consumes_statement (hstmt : Behaves none (statementFor ops n)) (hblock : Behaves none (blockFor ops n)) :
    Consumes (statementFor ops (n + 1)) := by
  have hexpr := behaves_expression ops
  unfold statementFor
  refine .here fun pos => .peek fun t => ?_
  split
  · exact (ConsumesAt.advance rfl).bind fun _ => (Behaves.expect rfl).bind fun _ => hexpr.bind fun value => .pure _
  · exact (ConsumesAt.advance rfl).bind fun _ => hexpr.bind fun value => .pure _
  · exact (ConsumesAt.advance rfl).bind fun _ => (behaves_printItems ops).bind fun items => .pure _
  · exact (ConsumesAt.advance rfl).bind fun _ => .pure _
  · have hend (test : Expr) (yes : Stmt) (no : Option Stmt) : Behaves none (do
        expect (.keyword .FI) .ifEnd
        pure (.cond pos test yes no) : Read Stmt) := (Behaves.expect rfl).bind fun _ => .pure _
    refine (ConsumesAt.advance rfl).bind fun _ => hexpr.bind fun test => (Behaves.expect rfl).bind fun _ =>
      hstmt.bind fun yes => ?_
    exact .ifIs rfl (hstmt.bind fun no => hend test yes (some no)) (hend test yes none)
  · exact (ConsumesAt.advance rfl).bind fun _ => hexpr.bind fun test => (Behaves.expect rfl).bind fun _ =>
      hstmt.bind fun body => (Behaves.expect rfl).bind fun _ => .pure _
  · exact (ConsumesAt.advance rfl).bind fun _ => (behaves_bindings ops).bind fun bs => hstmt.bind fun body => .pure _
  · exact (ConsumesAt.advance rfl).bind fun _ => (behaves_declarations ops).bind fun declared =>
      hblock.bind fun body => .pure _
  · exact .stray fun d => .throw

theorem behaves_block_succ (hstmt : Behaves none (statementFor ops n)) (hblock : Behaves none (blockFor ops n)) :
    Behaves none (blockFor ops (n + 1)) := by
  unfold blockFor
  refine .peek fun t => ?_
  split
  · rename_i ht
    exact (BehavesAt.advance (ht ▸ rfl)).bind fun _ => .pure _
  · split
    · exact (Behaves.fail fun _ => rfl).everywhere
    · split
      · rename_i ht
        have hskip : BehavesAt t (update State.skip) := fun s hs => .skip (hs.trans ht ▸ rfl)
        exact hskip.bind fun _ => hblock
      · split
        · refine (Behaves.attempt hstmt (fun stmt => ?_) fun d => ?_).everywhere
          · exact hblock.bind fun more => .pure _
          · exact (behaves_recover d).bind fun _ => hblock
        · refine (ConsumesAt.stray fun d => ?_).behavesAt
          have hspoil : Behaves (some d) (update fun s => { s.report d with failed := true }) := fun s => .single .spoil
          exact hspoil.bind fun _ => hblock

end Statements

theorem behaves_statements (ops : Operators) (n : Nat) :
    Behaves none (statementFor ops n) ∧ Behaves none (blockFor ops n) := by
  induction n with
  | zero => exact ⟨.fail fun _ => rfl, .fail fun _ => rfl⟩
  | succ n ih => exact ⟨(consumes_statement ih.1 ih.2).behaves, behaves_block_succ ih.1 ih.2⟩

/-! ## Functions -/

theorem behaves_operatorSymbol : Behaves none operatorSymbol := by
  have hfail {t : Token} : BehavesAt t (fail .expectedOperator : Read Char) := (Behaves.fail fun _ => rfl).everywhere
  refine .peek fun t => ?_
  split
  · split
    · exact hfail
    · exact (BehavesAt.advance rfl).bind fun _ => .pure _
  · exact hfail

/-- A number that is no precedence is refused once it has been consumed. -/
theorem behaves_precedence : Behaves none precedence := by
  refine .peek fun t => ?_
  split
  · rename_i x
    intro s ht
    change Changes ⟨s, none⟩ (.of (EStateM.bind advance _ s))
    unfold EStateM.bind advance
    cases h : s.fault? with
    | some d => exact .single (.stumble (ht ▸ rfl) h)
    | none =>
      cases precedenceOf? x with
      | some p => exact .single (.advance (ht ▸ rfl) h)
      | none => exact .single (.reject ht)
  · exact (Behaves.pure _).everywhere

theorem behaves_signature : Behaves none signature := by
  refine .peek fun t => ?_
  split
  · exact (BehavesAt.advance rfl).bind fun _ => .pure _
  · exact (BehavesAt.advance rfl).bind fun _ => behaves_operatorSymbol.bind fun op => .pure _
  · exact (BehavesAt.advance rfl).bind fun _ => behaves_operatorSymbol.bind fun op =>
      behaves_precedence.bind fun p => .pure _
  · exact (Behaves.fail fun _ => rfl).everywhere

theorem behaves_parametersFor (n : Nat) : Behaves none (parametersFor n) := by
  induction n with
  | zero => exact .fail fun _ => rfl
  | succ n ih =>
    exact Behaves.expectName.bind fun name =>
      .ifIs rfl (.pure _) ((Behaves.expect rfl).bind fun _ => ih.bind fun more => .pure _)

theorem behaves_parameters : Behaves none parameters := .ifIs rfl (.pure _) (.fueled behaves_parametersFor)

theorem behaves_prototype : Behaves none prototype :=
  .here fun _ => behaves_signature.bind fun _ => (Behaves.expect rfl).bind fun _ =>
    behaves_parameters.bind fun _ => .pure _

/-- Behind its `FUNC`, a function is read by changes. -/
theorem changes_function (ops : Operators) (s : State) : Changes ⟨s.next, s.fault?⟩ (.of (function ops s)) := by
  have hstart : Changes ⟨s.next, s.fault?⟩ (.of (advance s)) := by
    unfold advance
    cases s.fault? <;> exact .refl
  exact hstart.bind fun _ => behaves_prototype.bind fun proto =>
    (Behaves.fueled fun n => (behaves_statements ops n).1).bind fun body => .pure _

end Funclet.Grammar
