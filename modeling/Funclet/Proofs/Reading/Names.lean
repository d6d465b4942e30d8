import Funclet.Proofs.Reading.Attempts

/-!
# Names and symbols of functions that have been read

* `Token.Genuine` : names are made of letters and digits, and symbols are punctuation; so no name of a plain function
  is that of an operator function;
* `Expr.Spelled`, `Stmt.Spelled` : the operators of a tree are punctuation;
* `Prototype.WellNamed` : an operator function bears the name of its operator, any other one a plain name;
* `Reads P step` : from a state of genuine tokens, `step` leads to such a state, with a result of which `P` holds;
* `Produced.spelled` : every function that can be read is well named and spelled.
-/

namespace Funclet

/-! ## Trees -/

mutual

/-- All operators of an expression are punctuation. -/
def Expr.Spelled : Expr → Prop
  | .number _ _ | .text _ _ | .var _ _ => True
  | .unary _ op operand => Scan.isPunctuation op ∧ operand.Spelled
  | .binary _ op lhs rhs => Scan.isPunctuation op ∧ lhs.Spelled ∧ rhs.Spelled
  | .call _ _ args => spelledExprs args
  | .letIn _ bindings body => spelledBindings bindings ∧ body.Spelled
termination_by structural e => e

def spelledExprs : List Expr → Prop
  | [] => True
  | e :: es => e.Spelled ∧ spelledExprs es
termination_by structural l => l

def spelledBindings : List Binding → Prop
  | [] => True
  | ⟨_, _, none⟩ :: bs => spelledBindings bs
  | ⟨_, _, some e⟩ :: bs => e.Spelled ∧ spelledBindings bs
termination_by structural l => l

end

mutual

def Stmt.Spelled : Stmt → Prop
  | .assign _ _ value | .ret _ value => value.Spelled
  | .print _ items => spelledExprs items
  | .again _ => True
  | .cond _ test yes none => test.Spelled ∧ yes.Spelled
  | .cond _ test yes (some no) => test.Spelled ∧ yes.Spelled ∧ no.Spelled
  | .loop _ test body => test.Spelled ∧ body.Spelled
  | .block _ declared body => spelledBindings declared ∧ spelledStmts body
  | .letIn _ bindings body => spelledBindings bindings ∧ body.Spelled
termination_by structural s => s

def spelledStmts : List Stmt → Prop
  | [] => True
  | s :: ss => s.Spelled ∧ spelledStmts ss
termination_by structural l => l

end

/-- A name of letters and digits. -/
def PlainName (name : String) : Prop := ∀ c ∈ name.toList, c.isAlphanum

/-- An operator function bears the name of its operator, any other one a plain name. -/
def Prototype.WellNamed (p : Prototype) : Prop :=
  match p.kind with
  | .plain => PlainName p.name
  | .unary op => Scan.isPunctuation op ∧ p.name = unaryName op
  | .binary op _ => Scan.isPunctuation op ∧ p.name = binaryName op

/-- A function with a proper name, all operators of which are punctuation. -/
structure Function.Spelled (f : Function) : Prop where
  named : f.proto.WellNamed
  body : f.body.Spelled

theorem spelledBindings_append (bs cs : List Binding) (hb : spelledBindings bs) (hc : spelledBindings cs) :
    spelledBindings (bs ++ cs) := by
  induction bs with
  | nil => exact hc
  | cons b bs ih =>
    obtain ⟨pos, name, init⟩ := b
    cases init with
    | none => exact ih hb
    | some e => exact ⟨hb.1, ih hb.2⟩

/-! ## Tokens -/

/-- Names are made of letters and digits, and symbols are punctuation. -/
def Token.Genuine : Token → Prop
  | .ident name => PlainName name
  | .symbol c => Scan.isPunctuation c
  | _ => True

namespace Scan

theorem genuine_wordToken {word : List Char} (h : ∀ c ∈ word, c.isAlphanum) : (wordToken word).Genuine := by
  unfold wordToken
  split
  · trivial
  · intro c hc
    exact h c (by simpa using hc)

theorem genuine_lexeme {escapes : Bool} {c : Char} {cs : List Char} {t : Token}
    (h : (lexeme escapes c cs).reading = .ok t) : t.Genuine := by
  unfold lexeme at h
  split at h
  · rename_i hc
    cases h
    refine genuine_wordToken ?_
    intro d hd
    rcases List.mem_cons.mp hd with rfl | hd
    · simp [Char.isAlphanum, hc]
    · exact List.all_eq_true.mp List.all_takeWhile d hd
  · split at h
    · dsimp only at h
      split at h <;> cases h
      trivial
    · split at h
      · dsimp only at h
        split at h <;> cases h
        trivial
      · split at h
        · split at h <;> cases h
          trivial
        · split at h <;> cases h
          assumption

/-- Every token of a text is what some lexeme spells. -/
theorem exists_lexeme_of_mem {escapes : Bool} {p : Pos} {cs : List Char} {item : Item} {t : Token}
    (hitem : item ∈ (scanFrom escapes p cs).items) (ht : item.reading = .ok t) :
    ∃ c rest, (lexeme escapes c rest).reading = .ok t := by
  induction hn : cs.length using Nat.strongRecOn generalizing p cs with
  | _ n ih =>
    rw [scanFrom] at hitem
    dsimp only at hitem
    split at hitem
    · cases hitem
    · rename_i c rest hdrop
      rcases List.mem_cons.mp hitem with rfl | hitem
      · refine ⟨c, rest, ?_⟩
        unfold Lexeme.item at ht
        split at ht
        · rename_i u hu
          cases ht
          exact hu
        · cases ht
      · have hlen := congrArg List.length hdrop
        simp only [List.length_drop, List.length_cons] at hlen
        refine ih _ ?_ hitem rfl
        rw [List.length_drop]
        omega

/-- Every token of a text is genuine. -/
theorem genuine_scanFrom (escapes : Bool) (p : Pos) (cs : List Char) :
    ∀ item ∈ (scanFrom escapes p cs).items, ∀ t, item.reading = .ok t → t.Genuine := by
  intro item hitem t ht
  obtain ⟨c, rest, hread⟩ := exists_lexeme_of_mem hitem ht
  exact genuine_lexeme hread

end Scan

namespace Grammar

structure State.Genuine (s : State) : Prop where
  token : s.token.Genuine
  ahead : ∀ item ∈ s.ahead, ∀ t, item.reading = .ok t → t.Genuine

theorem State.genuine_ofScan (escapes : Bool) (source : String) : (State.ofScan (scan escapes source)).Genuine :=
  ⟨trivial, Scan.genuine_scanFrom escapes .start source.toList⟩

theorem State.Genuine.next {s : State} (h : s.Genuine) : s.next.Genuine := by
  unfold State.next
  split
  · exact ⟨trivial, h.ahead⟩
  · rename_i p t items heq
    refine ⟨h.ahead ⟨p, .ok t⟩ ?_ t rfl, fun item hitem => h.ahead item ?_⟩
    · rw [heq]
      exact List.mem_cons_self
    · rw [heq]
      exact List.mem_cons_of_mem _ hitem
  · rename_i p e items heq
    refine ⟨trivial, fun item hitem => h.ahead item ?_⟩
    rw [heq]
    exact List.mem_cons_of_mem _ hitem

theorem State.Genuine.skip {s : State} (h : s.Genuine) : s.skip.Genuine := by
  unfold State.skip
  split
  · exact h.next
  · exact ⟨h.next.token, h.next.ahead⟩

theorem State.Genuine.skipFor {stop : Token → Bool} {n : Nat} {s : State} (h : s.Genuine) :
    (skipFor stop n s).Genuine := by
  induction n generalizing s with
  | zero =>
    unfold State.skipFor
    split
    · exact h
    · exact h.skip
  | succ n ih =>
    unfold State.skipFor
    split
    · exact h
    · exact ih h.skip

theorem State.Genuine.report {s : State} (h : s.Genuine) (d : Diagnostic) : (s.report d).Genuine :=
  ⟨h.token, h.ahead⟩

theorem State.Genuine.toFunction {s : State} (h : s.Genuine) : s.toFunction.Genuine := by
  unfold State.toFunction State.skipUntil
  dsimp only
  split
  · exact h.skipFor
  · exact (h.skipFor.report _).skipFor

/-! ## Reading steps -/

/-- From a state of genuine tokens, `step` leads to such a state, and `P` holds of its result. -/
def Reads {α : Type} (P : α → Prop) (step : Read α) : Prop :=
  ∀ s, s.Genuine → match step s with
    | .ok a s' => P a ∧ s'.Genuine
    | .error _ s' => s'.Genuine

namespace Reads

variable {α β : Type} {P : α → Prop} {Q : β → Prop}

theorem bind {x : Read α} {f : α → Read β} (hx : Reads P x) (hf : ∀ a, P a → Reads Q (f a)) : Reads Q (x >>= f) := by
  intro s hs
  have hxs := hx s hs
  change match EStateM.bind x f s with
    | .ok a s' => Q a ∧ s'.Genuine
    | .error _ s' => s'.Genuine
  unfold EStateM.bind
  cases h : x s with
  | ok a t =>
    rw [h] at hxs
    exact hf a hxs.1 t hxs.2
  | error d t =>
    rw [h] at hxs
    exact hxs

theorem pure {a : α} (h : P a) : Reads P (pure a : Read α) := fun _ hs => ⟨h, hs⟩

theorem fail {cause : Token → Cause} : Reads P (fail cause : Read α) := fun _ hs => hs

theorem throw {d : Diagnostic} : Reads P (throw d : Read α) := fun _ hs => hs

theorem advance : Reads (fun _ => True) advance := by
  intro s hs
  unfold Grammar.advance
  cases s.fault? with
  | none => exact ⟨trivial, hs.next⟩
  | some d => exact hs.next

theorem peek : Reads Token.Genuine peek := fun _ hs => ⟨hs.token, hs⟩

theorem here : Reads (fun _ => True) here := fun _ hs => ⟨trivial, hs⟩

theorem attempt {step : Read α} (h : Reads P step) :
    Reads (fun r => ∀ a, r = .ok a → P a) (attempt step) := by
  intro s hs
  have hstep := h s hs
  unfold Grammar.attempt
  cases hr : step s with
  | ok a t =>
    rw [hr] at hstep
    refine ⟨?_, hstep.2⟩
    rintro _ ⟨⟩
    exact hstep.1
  | error d t =>
    rw [hr] at hstep
    refine ⟨?_, hstep⟩
    rintro _ ⟨⟩

theorem update {f : State → State} (h : ∀ s, s.Genuine → (f s).Genuine) : Reads (fun _ => True) (update f) :=
  fun s hs => ⟨trivial, h s hs⟩

/-- A step whose depth depends on the state. -/
theorem fueled {step : Nat → Read α} (h : ∀ n, Reads P (step n)) : Reads P (fun s => step s.fuel s) :=
  fun s hs => h s.fuel s hs

theorem ite {c : Prop} [Decidable c] {x y : Read α} (hx : Reads P x) (hy : Reads P y) :
    Reads P (if c then x else y) := by
  split
  · exact hx
  · exact hy

theorem expect {t : Token} {context : Context} : Reads (fun _ => True) (expect t context) := by
  unfold Grammar.expect
  refine peek.bind fun u _ => ?_
  split
  · exact advance
  · exact fail

theorem expectName {context : NameContext} : Reads PlainName (expectName context) := by
  unfold Grammar.expectName
  refine peek.bind fun t ht => ?_
  split
  · exact advance.bind fun _ _ => pure ht
  · exact fail

end Reads

/-! ## Expressions -/

section Expressions

variable (ops : Operators)

structure ReadsExpressions (n : Nat) : Prop where
  expression : Reads Expr.Spelled (expressionFor ops n)
  climb : ∀ least lhs, lhs.Spelled → Reads Expr.Spelled (climbFor ops n least lhs)
  operand : Reads Expr.Spelled (operandFor ops n)
  primary : Reads Expr.Spelled (primaryFor ops n)
  arguments : Reads spelledExprs (argumentsFor ops n)
  moreArguments : Reads spelledExprs (moreArgumentsFor ops n)
  bindings : Reads spelledBindings (bindingsFor ops n)

variable {ops} {n : Nat}

theorem ReadsExpressions.climb_succ (ih : ReadsExpressions ops n) (least : Nat) (lhs : Expr) (h : lhs.Spelled) :
    Reads Expr.Spelled (climbFor ops (n + 1) least lhs) := by
  unfold climbFor
  refine Reads.peek.bind fun t ht => ?_
  split
  · rename_i op
    split
    · exact .pure h
    · rename_i precedence _
      split
      · exact .pure h
      · refine Reads.here.bind fun pos _ => Reads.advance.bind fun _ _ => ih.operand.bind fun operand hoperand => ?_
        refine Reads.peek.bind fun u _ => ?_
        split
        · exact (ih.climb _ _ hoperand).bind fun rhs hr => ih.climb _ _ ⟨ht, h, hr⟩
        · exact (Reads.pure hoperand).bind fun rhs hr => ih.climb _ _ ⟨ht, h, hr⟩
  · exact .pure h

theorem ReadsExpressions.operand_succ (ih : ReadsExpressions ops n) : Reads Expr.Spelled (operandFor ops (n + 1)) := by
  unfold operandFor
  refine Reads.here.bind fun pos _ => Reads.peek.bind fun t ht => ?_
  split
  · rename_i op
    split
    · exact Reads.advance.bind fun _ _ => ih.operand.bind fun operand h => .pure ⟨ht, h⟩
    · exact ih.primary
  · exact ih.primary

theorem ReadsExpressions.primary_succ (ih : ReadsExpressions ops n) : Reads Expr.Spelled (primaryFor ops (n + 1)) := by
  refine Reads.here.bind fun pos _ => Reads.peek.bind fun t ht => ?_
  cases t with
  | number value => exact Reads.advance.bind fun _ _ => .pure trivial
  | ident name =>
    refine Reads.advance.bind fun _ _ => Reads.peek.bind fun u _ => ?_
    split
    · exact Reads.advance.bind fun _ _ => ih.arguments.bind fun args h => .pure h
    · exact .pure trivial
  | symbol c =>
    dsimp only
    split
    · exact Reads.advance.bind fun _ _ => ih.expression.bind fun inner h => Reads.expect.bind fun _ _ => .pure h
    · split
      · exact Reads.advance.bind fun _ _ => ih.operand.bind fun operand h => .pure ⟨by decide, trivial, h⟩
      · exact .fail
  | keyword k =>
    cases k with
    | VAR =>
      exact Reads.advance.bind fun _ _ => ih.bindings.bind fun bs hb => ih.expression.bind fun body h => .pure ⟨hb, h⟩
    | _ => exact .fail
  | _ => exact .fail

theorem ReadsExpressions.bindings_succ (ih : ReadsExpressions ops n) :
    Reads spelledBindings (bindingsFor ops (n + 1)) := by
  unfold bindingsFor
  refine Reads.here.bind fun pos _ => Reads.expectName.bind fun name _ => ?_
  have hmore : ∀ init, spelledBindings [⟨pos, name, init⟩] → Reads spelledBindings (do
      if (← peek) = .symbol ',' then do
        advance
        let more ← bindingsFor ops n
        pure (⟨pos, name, init⟩ :: more)
      else pure [⟨pos, name, init⟩]) := by
    intro init h
    refine Reads.peek.bind fun u _ => ?_
    split
    · exact Reads.advance.bind fun _ _ => ih.bindings.bind fun more hm => .pure (spelledBindings_append [_] more h hm)
    · exact .pure h
  refine Reads.peek.bind fun t _ => ?_
  split
  · exact Reads.advance.bind fun _ _ => ih.expression.bind fun value h => hmore (some value) ⟨h, trivial⟩
  · exact hmore none trivial

theorem readsExpressions (ops : Operators) (n : Nat) : ReadsExpressions ops n := by
  induction n with
  | zero => exact ⟨.fail, fun _ _ _ => .fail, .fail, .fail, .fail, .fail, .fail⟩
  | succ n ih =>
    refine ⟨?_, ih.climb_succ, ih.operand_succ, ih.primary_succ, ?_, ?_, ih.bindings_succ⟩
    · exact ih.operand.bind fun lhs h => ih.climb _ _ h
    · refine Reads.peek.bind fun t _ => ?_
      split
      · exact Reads.advance.bind fun _ _ => .pure trivial
      · exact ih.moreArguments
    · refine ih.expression.bind fun arg h => Reads.peek.bind fun t _ => ?_
      split
      · exact Reads.advance.bind fun _ _ => .pure ⟨h, trivial⟩
      · exact Reads.expect.bind fun _ _ => ih.moreArguments.bind fun args hargs => .pure ⟨h, hargs⟩

theorem reads_expression : Reads Expr.Spelled (expression ops) :=
  .fueled fun n => (readsExpressions ops n).expression

theorem reads_bindings : Reads spelledBindings (bindings ops) :=
  .fueled fun n => (readsExpressions ops n).bindings

end Expressions

/-! ## Statements -/

section Statements

variable {ops : Operators} {n : Nat}

theorem reads_printItemsFor : Reads spelledExprs (printItemsFor ops n) := by
  induction n with
  | zero => exact .fail
  | succ n ih =>
    unfold printItemsFor
    refine Reads.here.bind fun pos _ => Reads.peek.bind fun t _ => ?_
    have hmore : ∀ item : Expr, item.Spelled → Reads spelledExprs (do
        if (← peek) = .symbol ',' then do
          advance
          let more ← printItemsFor ops n
          pure (item :: more)
        else pure [item]) := by
      intro item h
      refine Reads.peek.bind fun u _ => ?_
      split
      · exact Reads.advance.bind fun _ _ => ih.bind fun more hm => .pure ⟨h, hm⟩
      · exact .pure ⟨h, trivial⟩
    split
    · exact Reads.advance.bind fun _ _ => hmore _ trivial
    · exact reads_expression.bind hmore

theorem reads_printItems : Reads spelledExprs (printItems ops) :=
  .fueled fun _ => reads_printItemsFor

theorem reads_declarationsFor : Reads spelledBindings (declarationsFor ops n) := by
  induction n with
  | zero => exact .fail
  | succ n ih =>
    refine Reads.peek.bind fun t _ => ?_
    split
    · exact Reads.advance.bind fun _ _ => reads_bindings.bind fun first hf => ih.bind fun more hm =>
        .pure (spelledBindings_append first more hf hm)
    · exact .pure trivial

theorem reads_declarations : Reads spelledBindings (declarations ops) :=
  .fueled fun _ => reads_declarationsFor

theorem reads_stray : Reads (fun _ => True) stray := fun _ hs => ⟨trivial, hs.next⟩

theorem reads_recover (d : Diagnostic) : Reads (fun _ => True) (recover d) :=
  .update fun s hs => State.Genuine.skipFor (s := { s.report d with failed := true }) ⟨hs.token, hs.ahead⟩

variable (ops) in
structure ReadsStatements (n : Nat) : Prop where
  statement : Reads Stmt.Spelled (statementFor ops n)
  block : Reads spelledStmts (blockFor ops n)

theorem ReadsStatements.statement_succ (ih : ReadsStatements ops n) :
    Reads Stmt.Spelled (statementFor ops (n + 1)) := by
  unfold statementFor
  refine Reads.here.bind fun pos _ => Reads.peek.bind fun t _ => ?_
  split
  · exact Reads.advance.bind fun _ _ => Reads.expect.bind fun _ _ => reads_expression.bind fun value h => .pure h
  · exact Reads.advance.bind fun _ _ => reads_expression.bind fun value h => .pure h
  · exact Reads.advance.bind fun _ _ => reads_printItems.bind fun items h => .pure h
  · exact Reads.advance.bind fun _ _ => .pure trivial
  · refine Reads.advance.bind fun _ _ => reads_expression.bind fun test ht => Reads.expect.bind fun _ _ =>
      ih.statement.bind fun yes hy => Reads.peek.bind fun u _ => ?_
    split
    · exact Reads.advance.bind fun _ _ => ih.statement.bind fun no hn => Reads.expect.bind fun _ _ =>
        .pure ⟨ht, hy, hn⟩
    · exact Reads.expect.bind fun _ _ => .pure ⟨ht, hy⟩
  · exact Reads.advance.bind fun _ _ => reads_expression.bind fun test ht => Reads.expect.bind fun _ _ =>
      ih.statement.bind fun body hb => Reads.expect.bind fun _ _ => .pure ⟨ht, hb⟩
  · exact Reads.advance.bind fun _ _ => reads_bindings.bind fun bs hb => ih.statement.bind fun body h => .pure ⟨hb, h⟩
  · exact Reads.advance.bind fun _ _ => reads_declarations.bind fun declared hd =>
      ih.block.bind fun body hb => .pure ⟨hd, hb⟩
  · exact reads_stray.bind fun d _ => .throw

theorem ReadsStatements.block_succ (ih : ReadsStatements ops n) : Reads spelledStmts (blockFor ops (n + 1)) := by
  unfold blockFor
  refine Reads.peek.bind fun t _ => ?_
  split
  · exact Reads.advance.bind fun _ _ => .pure trivial
  · split
    · exact .fail
    · split
      · exact (Reads.update fun _ hs => hs.skip).bind fun _ _ => ih.block
      · split
        · refine ih.statement.attempt.bind fun r hr => ?_
          split
          · rename_i stmt
            exact ih.block.bind fun more hm => .pure ⟨hr stmt rfl, hm⟩
          · exact (reads_recover _).bind fun _ _ => ih.block
        · refine reads_stray.bind fun d _ => Reads.bind (P := fun _ => True) ?_ fun _ _ => ih.block
          exact .update fun s hs => ⟨hs.token, hs.ahead⟩

theorem readsStatements (ops : Operators) (n : Nat) : ReadsStatements ops n := by
  induction n with
  | zero => exact ⟨.fail, .fail⟩
  | succ n ih => exact ⟨ih.statement_succ, ih.block_succ⟩

end Statements

/-! ## Functions -/

theorem reads_operatorSymbol : Reads (fun c => Scan.isPunctuation c) operatorSymbol := by
  unfold operatorSymbol
  refine Reads.peek.bind fun t ht => ?_
  split
  · split
    · exact .fail
    · exact Reads.advance.bind fun _ _ => .pure ht
  · exact .fail

theorem reads_precedence : Reads (fun _ => True) precedence := by
  unfold precedence
  refine Reads.peek.bind fun t _ => ?_
  split
  · refine Reads.here.bind fun pos _ => Reads.advance.bind fun _ _ => ?_
    split
    · exact .pure trivial
    · exact .throw
  · exact .pure trivial

/-- The name and the kind of a function fit, whatever its parameters are. -/
theorem reads_signature :
    Reads (fun nk : String × FunctionKind => ∀ pos params, Prototype.WellNamed ⟨pos, nk.1, params, nk.2⟩)
      signature := by
  unfold signature
  refine Reads.peek.bind fun t ht => ?_
  split
  · exact Reads.advance.bind fun _ _ => .pure fun _ _ => ht
  · exact Reads.advance.bind fun _ _ => reads_operatorSymbol.bind fun op hop => .pure fun _ _ => ⟨hop, rfl⟩
  · exact Reads.advance.bind fun _ _ => reads_operatorSymbol.bind fun op hop => reads_precedence.bind fun p _ =>
      .pure fun _ _ => ⟨hop, rfl⟩
  · exact .fail

theorem reads_parameters : Reads (fun _ => True) parameters := by
  have hfor : ∀ n, Reads (fun _ => True) (parametersFor n) := by
    intro n
    induction n with
    | zero => exact .fail
    | succ n ih =>
      refine Reads.expectName.bind fun name _ => Reads.peek.bind fun t _ => ?_
      split
      · exact Reads.advance.bind fun _ _ => .pure trivial
      · exact Reads.expect.bind fun _ _ => ih.bind fun _ _ => .pure trivial
  exact Reads.peek.bind fun t _ => Reads.ite (Reads.advance.bind fun _ _ => .pure trivial) (.fueled hfor)

theorem reads_function (ops : Operators) : Reads Function.Spelled (function ops) := by
  refine Reads.advance.bind fun _ _ => ?_
  have hproto : Reads Prototype.WellNamed prototype :=
    Reads.here.bind fun pos _ => reads_signature.bind fun nk h => Reads.expect.bind fun _ _ =>
      reads_parameters.bind fun params _ => .pure (h pos params)
  exact hproto.bind fun proto hp => (Reads.fueled fun n => (readsStatements ops n).statement).bind fun body hb =>
    .pure ⟨hp, hb⟩

theorem State.Genuine.nextFunction {s : State} (h : s.Genuine) (ops : Operators) :
    (s.nextFunction ops).2.Genuine ∧ ∀ f, (s.nextFunction ops).1 = .function f → f.Spelled := by
  unfold State.nextFunction
  dsimp only
  split
  · exact ⟨h.toFunction, fun f hf => by cases hf⟩
  · have hread := reads_function ops { s.toFunction with failed := false } ⟨h.toFunction.token, h.toFunction.ahead⟩
    cases hf : function ops { s.toFunction with failed := false } with
    | ok f t =>
      rw [hf] at hread
      refine ⟨hread.2, fun g hg => ?_⟩
      dsimp only at hg
      split at hg
      · cases hg
      · cases hg
        exact hread.1
    | error d t =>
      rw [hf] at hread
      exact ⟨State.Genuine.skipFor (State.Genuine.report hread d), fun g hg => by cases hg⟩

theorem Reached.genuine {escapes : Bool} {source : String} {s : State} (h : Reached escapes source s) : s.Genuine := by
  induction h with
  | start => exact State.genuine_ofScan escapes source
  | next _ ops ih => exact (ih.nextFunction ops).1
  | handOver _ ih => exact ⟨ih.token, ih.ahead⟩

/-- Every function that can be read is well named, and its operators are punctuation. -/
theorem Produced.spelled {f : Function} (h : Produced f) : f.Spelled := by
  obtain ⟨escapes, source, s, ops, hs, hf⟩ := h
  exact (hs.genuine.nextFunction ops).2 f hf

end Grammar

end Funclet
