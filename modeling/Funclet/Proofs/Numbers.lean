import Funclet.Proofs.Evaluation
import Funclet.Proofs.Machine.Running
import Funclet.Proofs.Reading.Acceptance
import Funclet.Proofs.Reading.Attempts

/-!
# Numbers and texts

A value may be a text, but a text of the source stands only where a `PRINT` lists it, so what is read computes with
numbers.

* `Expr.Textless`, `Stmt.Textless` : text stands in a tree only where a `PRINT` lists it;
* `Derives.textless`, `Produced.textless` : so it is in every tree that is derived, and in every function that is read;
* `Safe P x` : from variables that are numbers, the evaluation `x` leads to such, with a result of which `P` holds, and
  is not at fault for a text; it composes (`Safe.bind`);
* `callFunction_safe` : textless functions give numbers for numbers.
-/

namespace Funclet

/-! ## Trees -/

mutual

def Expr.Textless : Expr → Prop
  | .number _ _ | .var _ _ => True
  | .text _ _ => False
  | .unary _ _ operand => operand.Textless
  | .binary _ _ lhs rhs => lhs.Textless ∧ rhs.Textless
  | .call _ _ args => textlessExprs args
  | .letIn _ bindings body => textlessBindings bindings ∧ body.Textless
termination_by structural e => e

def textlessExprs : List Expr → Prop
  | [] => True
  | e :: es => e.Textless ∧ textlessExprs es
termination_by structural l => l

def textlessBindings : List Binding → Prop
  | [] => True
  | ⟨_, _, none⟩ :: bs => textlessBindings bs
  | ⟨_, _, some e⟩ :: bs => e.Textless ∧ textlessBindings bs
termination_by structural l => l

end

/-- The expression is a text, or none stands in it. -/
def Expr.Printable (e : Expr) : Prop := (∃ pos s, e = .text pos s) ∨ e.Textless

mutual

/-- Text stands in the statement only where a `PRINT` lists it. -/
def Stmt.Textless : Stmt → Prop
  | .assign _ _ value | .ret _ value => value.Textless
  | .print _ items => ∀ item ∈ items, item.Printable
  | .again _ => True
  | .cond _ test yes none => test.Textless ∧ yes.Textless
  | .cond _ test yes (some no) => test.Textless ∧ yes.Textless ∧ no.Textless
  | .loop _ test body => test.Textless ∧ body.Textless
  | .block _ declared body => textlessBindings declared ∧ textlessStmts body
  | .letIn _ bindings body => textlessBindings bindings ∧ body.Textless
termination_by structural s => s

def textlessStmts : List Stmt → Prop
  | [] => True
  | s :: ss => s.Textless ∧ textlessStmts ss
termination_by structural l => l

end

theorem textlessBindings_cons {pos : Pos} {name : String} {init : Option Expr} {bs : List Binding}
    (hinit : ∀ e ∈ init, e.Textless) (hbs : textlessBindings bs) : textlessBindings (⟨pos, name, init⟩ :: bs) := by
  cases init with
  | none => exact hbs
  | some e => exact ⟨hinit e rfl, hbs⟩

theorem textlessBindings_append (bs cs : List Binding) (hb : textlessBindings bs) (hc : textlessBindings cs) :
    textlessBindings (bs ++ cs) := by
  induction bs with
  | nil => exact hc
  | cons b bs ih =>
    obtain ⟨pos, name, _ | e⟩ := b
    · exact ih hb
    · exact ⟨hb.1, ih hb.2⟩

/-! ## What is read -/

namespace Grammar

/-- Text stands in the phrase only where a `PRINT` lists it; the left operand of a climb is not read by it. -/
def Phrase.Textless : Phrase → Prop
  | .expression e | .operand e | .primary e => e.Textless
  | .climb _ lhs e => lhs.Textless → e.Textless
  | .arguments args | .moreArguments args => textlessExprs args
  | .initializer init => ∀ e ∈ init, e.Textless
  | .bindings bs | .declarations bs => textlessBindings bs
  | .printItem i => i.Printable
  | .printItems is => ∀ i ∈ is, i.Printable
  | .otherwise no => ∀ x ∈ no, x.Textless
  | .statement x => x.Textless
  | .block xs => textlessStmts xs
  | .precedence _ | .signature .. | .parameters _ | .moreParameters _ | .prototype _ => True
  | .function f => f.body.Textless

theorem Derives.textless {ops : Operators} {φ : Phrase} {items rest : List Item} (h : Derives ops φ items rest) :
    φ.Textless := by
  induction h with
  | expression _ _ ihlhs ih => exact ih ihlhs
  | climbStop _ => exact id
  | climbOn _ _ _ _ _ _ ihoperand ihrhs ih => exact fun hlhs => ih ⟨hlhs, ihrhs ihoperand⟩
  | unary _ _ _ ih => exact ih
  | operand _ _ ih => exact ih
  | number _ => trivial
  | var _ _ => trivial
  | call _ _ _ ih => exact ih
  | group _ _ _ ih => exact ih
  | negation _ _ ih => exact ⟨trivial, ih⟩
  | letExpr _ _ _ ihbs ih => exact ⟨ihbs, ih⟩
  | noArguments _ => trivial
  | arguments _ _ ih => exact ih
  | lastArgument _ _ ih => exact ⟨ih, trivial⟩
  | nextArgument _ _ _ iharg ih => exact ⟨iharg, ih⟩
  | noInitializer _ => exact fun _ he => by cases he
  | initializer _ _ ih => exact fun _ he => Option.some.inj he ▸ ih
  | lastBinding _ _ _ ih => exact textlessBindings_cons ih trivial
  | nextBinding _ _ _ _ ihinit ih => exact textlessBindings_cons ihinit ih
  | text _ => exact .inl ⟨_, _, rfl⟩
  | value _ _ ih => exact .inr ih
  | lastItem _ _ ih => exact List.forall_mem_singleton.2 ih
  | nextItem _ _ _ ihi ih => exact List.forall_mem_cons.2 ⟨ihi, ih⟩
  | noDeclarations _ => trivial
  | declarations _ _ _ ihbs ih => exact textlessBindings_append _ _ ihbs ih
  | noOtherwise _ => exact fun _ hx => by cases hx
  | otherwise _ _ ih => exact fun _ hx => Option.some.inj hx ▸ ih
  | assign _ _ _ ih => exact ih
  | ret _ _ ih => exact ih
  | print _ _ ih => exact ih
  | again _ => trivial
  | @cond _ _ _ _ _ no _ _ _ _ _ _ _ _ _ _ _ _ _ ihtest ihyes ihno =>
    cases no with
    | none => exact ⟨ihtest, ihyes⟩
    | some no => exact ⟨ihtest, ihyes, ihno no rfl⟩
  | loop _ _ _ _ _ ihtest ih => exact ⟨ihtest, ih⟩
  | letStmt _ _ _ ihbs ih => exact ⟨ihbs, ih⟩
  | braces _ _ _ ihbs ih => exact ⟨ihbs, ih⟩
  | blockEnd _ => trivial
  | blockMore _ _ ihx ih => exact ⟨ihx, ih⟩
  | function _ _ _ _ ih => exact ih
  | _ => trivial

theorem Produced.textless {f : Function} (h : Produced f) : f.body.Textless := by
  obtain ⟨escapes, source, s, ops, hs, hf⟩ := h
  exact (hs.derives (Prod.ext hf rfl)).1.textless

end Grammar

namespace Evaluation

/-! ## Variables that are numbers -/

def IsNumber (v : Value) : Prop := ∃ x, v = .number x

def State.Numeric (s : State) : Prop := ∀ f ∈ s.env, ∀ c ∈ f, IsNumber c.2

section Frames

variable {name : String} {v : Value}

theorem isNumber_of_lookup {s : State} (hs : s.Numeric) (h : s.env.lookup name = some v) : IsNumber v := by
  obtain ⟨l, k, hl, -⟩ := List.lookup_eq_some_iff.1 h
  have hmem : (name, v) ∈ s.env.flatten := by
    rw [hl]
    simp
  obtain ⟨f, hf, hc⟩ := List.mem_flatten.1 hmem
  exact hs f hf _ hc

theorem isNumber_put (hv : IsNumber v) {f : List (String × Value)} (hf : ∀ c ∈ f, IsNumber c.2) :
    ∀ c ∈ Frames.put name v f, IsNumber c.2 := by
  induction f with
  | nil => exact hf
  | cons c f ih =>
    obtain ⟨hc, hf⟩ := List.forall_mem_cons.1 hf
    unfold Frames.put
    split
    · exact List.forall_mem_cons.2 ⟨hv, hf⟩
    · exact List.forall_mem_cons.2 ⟨hc, ih hf⟩

theorem isNumber_assign (hv : IsNumber v) {Γ : Frames Value} (hΓ : ∀ f ∈ Γ, ∀ c ∈ f, IsNumber c.2) :
    ∀ f ∈ Γ.assign name v, ∀ c ∈ f, IsNumber c.2 := by
  induction Γ with
  | nil => exact hΓ
  | cons f Γ ih =>
    obtain ⟨hf, hΓ⟩ := List.forall_mem_cons.1 hΓ
    unfold Frames.assign
    split
    · exact List.forall_mem_cons.2 ⟨isNumber_put hv hf, hΓ⟩
    · exact List.forall_mem_cons.2 ⟨hf, ih hΓ⟩

theorem isNumber_declare (hv : IsNumber v) {Γ : Frames Value} (hΓ : ∀ f ∈ Γ, ∀ c ∈ f, IsNumber c.2) :
    ∀ f ∈ Γ.declare name v, ∀ c ∈ f, IsNumber c.2 := by
  cases Γ with
  | nil => exact hΓ
  | cons f Γ =>
    obtain ⟨hf, hΓ⟩ := List.forall_mem_cons.1 hΓ
    exact List.forall_mem_cons.2 ⟨List.forall_mem_cons.2 ⟨hv, hf⟩, hΓ⟩

end Frames

/-! ## Safe evaluations -/

/-- The evaluation has not stopped for a text among numbers. -/
def Stop.Sober (e : Stop) : Prop := ∀ use, e ≠ .fault (.textInArithmetic use)

/-- Where all variables are numbers, they stay so, the result has `P`, and no text is among numbers. -/
def Safe {α : Type} (P : α → Prop) (x : Eval α) : Prop :=
  ∀ s, s.Numeric → match x s with
    | .ok a s' => P a ∧ s'.Numeric
    | .error e _ => e.Sober

namespace Safe

variable {α β : Type} {P : α → Prop} {Q : β → Prop}

theorem bind {x : Eval α} {f : α → Eval β} (hx : Safe P x) (hf : ∀ a, P a → Safe Q (f a)) : Safe Q (x >>= f) := by
  intro s hs
  have hxs := hx s hs
  rw [Machine.bind_apply]
  cases h : x s with
  | ok a s' =>
    rw [h] at hxs
    exact hf a hxs.1 s' hxs.2
  | error e s' =>
    rw [h] at hxs
    exact hxs

theorem mono {Q : α → Prop} {x : Eval α} (hx : Safe P x) (h : ∀ a, P a → Q a) : Safe Q x := by
  intro s hs
  have hxs := hx s hs
  cases hr : x s with
  | ok a s' =>
    rw [hr] at hxs
    exact ⟨h a hxs.1, hxs.2⟩
  | error e s' =>
    rw [hr] at hxs
    exact hxs

theorem pure {a : α} (h : P a) : Safe P (pure a : Eval α) := fun _ hs => ⟨h, hs⟩

theorem throw {e : Stop} (h : e.Sober) : Safe P (throw e : Eval α) := fun _ _ => h

theorem ite {t : Bool} {x y : Eval α} (hx : Safe P x) (hy : Safe P y) : Safe P (if t then x else y) := by
  split
  · exact hx
  · exact hy

theorem inScope {part : Eval α} (h : Safe P part) : Safe P (inScope part) := by
  have hstart : Safe (fun _ : Unit => True) (modify fun s => { s with env := [] :: s.env }) := fun _ hs =>
    ⟨trivial, List.forall_mem_cons.2 ⟨List.forall_mem_nil _, hs⟩⟩
  have hend : Safe (fun _ : Unit => True) (modify fun s => { s with env := s.env.tail }) := fun _ hs =>
    ⟨trivial, fun f hf => hs f (List.mem_of_mem_tail hf)⟩
  exact hstart.bind fun _ _ => h.bind fun _ ha => hend.bind fun _ _ => .pure ha

end Safe

theorem Stop.Sober.stuck : Stop.stuck.Sober := fun _ h => by cases h

theorem Stop.Sober.timeout : Stop.timeout.Sober := fun _ h => by cases h

theorem lookup_safe (name : String) : Safe IsNumber (lookup name) := by
  intro s hs
  unfold lookup
  cases h : s.env.lookup name with
  | none => exact .stuck
  | some v => exact ⟨isNumber_of_lookup hs h, hs⟩

theorem assign_safe (name : String) {v : Value} (hv : IsNumber v) : Safe (fun _ => True) (assign name v) := by
  intro s hs
  unfold assign
  cases s.env.lookup name with
  | none => exact .stuck
  | some _ => exact ⟨trivial, isNumber_assign hv hs⟩

theorem declare_safe (name : String) {v : Value} (hv : IsNumber v) : Safe (fun _ => True) (declare name v) :=
  fun _ hs => ⟨trivial, isNumber_declare hv hs⟩

theorem operand_safe (op : Primitive) {v : Value} (hv : IsNumber v) : Safe (fun _ => True) (operand op v) := by
  obtain ⟨x, rfl⟩ := hv
  exact .pure trivial

theorem sober_apply {op : Primitive} {x y : Float} {e : RuntimeError} (h : op.apply x y = .error e) :
    (Stop.fault e).Sober := by
  rintro use ⟨⟩
  cases op with
  | div =>
    simp only [Primitive.apply] at h
    split at h <;> cases h
  | _ => cases h

theorem arithmetic_safe (op : Primitive) {l r : Value} (hl : IsNumber l) (hr : IsNumber r) :
    Safe IsNumber (arithmetic op l r) := by
  refine (operand_safe op hl).bind fun x _ => (operand_safe op hr).bind fun y _ => ?_
  cases h : op.apply x y with
  | ok z => exact .pure ⟨z, rfl⟩
  | error e => exact .throw (sober_apply h)

theorem holds_safe {c : Value} (hc : IsNumber c) : Safe (fun _ => True) (holds c) :=
  (operand_safe .ne hc).bind fun _ _ => .pure trivial

theorem printLine_safe (line : String) : Safe (fun _ => True) (printLine line) := fun _ hs => ⟨trivial, hs⟩

/-- The result of a function is a number, if it has one, and no text is among numbers. -/
def SafeResult : EStateM.Result Stop String Value → Prop
  | .ok v _ => IsNumber v
  | .error e _ => e.Sober

def SafeCalls (call : Calls) : Prop :=
  ∀ name args printed, (∀ v ∈ args, IsNumber v) → SafeResult (call name args printed)

section Trees

variable {call : Calls}

theorem calling_safe (hcall : SafeCalls call) (name : String) {args : List Value} (hargs : ∀ v ∈ args, IsNumber v) :
    Safe IsNumber (calling call name args) := by
  intro s hs
  have hresult := hcall name args s.printed hargs
  unfold calling
  cases h : call name args s.printed with
  | ok v printed =>
    rw [h] at hresult
    exact ⟨hresult, hs⟩
  | error e printed =>
    rw [h] at hresult
    exact hresult

mutual

theorem evalExpr_safe (hcall : SafeCalls call) : ∀ e : Expr, e.Textless → Safe IsNumber (evalExpr call e)
  | .number _ x, _ => by
    rw [evalExpr]
    exact .pure ⟨x, rfl⟩
  | .text _ _, h => h.elim
  | .var _ name, _ => by
    rw [evalExpr]
    exact lookup_safe name
  | .unary _ op e, h => by
    rw [evalExpr]
    exact (evalExpr_safe hcall e h).bind fun v hv => calling_safe hcall _ (List.forall_mem_singleton.2 hv)
  | .binary pos op lhs rhs, h => by
    by_cases hop : op = '='
    · subst hop
      by_cases hl : ∃ target name, lhs = .var target name
      · obtain ⟨target, name, rfl⟩ := hl
        rw [evalExpr, if_pos rfl]
        exact (evalExpr_safe hcall rhs h.2).bind fun v hv => (assign_safe name hv).bind fun _ _ => .pure hv
      · rw [evalExpr_badDestination call pos rhs fun target name h => hl ⟨target, name, h⟩]
        exact .throw .stuck
    · rw [evalExpr_binary call hop]
      refine (evalExpr_safe hcall lhs h.1).bind fun l hl => (evalExpr_safe hcall rhs h.2).bind fun r hr => ?_
      split
      · exact arithmetic_safe _ hl hr
      · exact calling_safe hcall _ (List.forall_mem_cons.2 ⟨hl, List.forall_mem_singleton.2 hr⟩)
  | .call _ name args, h => by
    rw [evalExpr]
    exact (evalExprs_safe hcall args h).bind fun vs hvs => calling_safe hcall name hvs
  | .letIn _ bs e, h => by
    rw [evalExpr]
    exact ((evalBindings_safe hcall bs h.1).bind fun _ _ => evalExpr_safe hcall e h.2).inScope
termination_by structural e => e

theorem evalExprs_safe (hcall : SafeCalls call) :
    ∀ es : List Expr, textlessExprs es → Safe (fun vs => ∀ v ∈ vs, IsNumber v) (evalExprs call es)
  | [], _ => by
    rw [evalExprs]
    exact .pure (List.forall_mem_nil _)
  | e :: es, h => by
    rw [evalExprs]
    exact (evalExpr_safe hcall e h.1).bind fun v hv => (evalExprs_safe hcall es h.2).bind fun vs hvs =>
      .pure (List.forall_mem_cons.2 ⟨hv, hvs⟩)
termination_by structural l => l

theorem evalBindings_safe (hcall : SafeCalls call) :
    ∀ bs : List Binding, textlessBindings bs → Safe (fun _ => True) (evalBindings call bs)
  | [], _ => by
    rw [evalBindings]
    exact .pure trivial
  | ⟨_, name, none⟩ :: bs, h => by
    rw [evalBindings]
    exact (declare_safe name ⟨0, rfl⟩).bind fun _ _ => evalBindings_safe hcall bs h
  | ⟨_, name, some e⟩ :: bs, h => by
    rw [evalBindings]
    exact (evalExpr_safe hcall e h.1).bind fun v hv => (declare_safe name hv).bind fun _ _ =>
      evalBindings_safe hcall bs h.2
termination_by structural l => l

end

theorem evalTest_safe (hcall : SafeCalls call) {test : Expr} (h : test.Textless) :
    Safe (fun _ => True) (evalTest call test) :=
  (evalExpr_safe hcall test h).bind fun _ hc => holds_safe hc

/-- What a `PRINT` lists may be text. -/
theorem evalItems_safe (hcall : SafeCalls call) {items : List Expr} (h : ∀ item ∈ items, item.Printable) :
    Safe (fun _ => True) (evalExprs call items) := by
  induction items with
  | nil =>
    rw [evalExprs]
    exact .pure trivial
  | cons e es ih =>
    obtain ⟨he, hes⟩ := List.forall_mem_cons.1 h
    have hitem : Safe (fun _ => True) (evalExpr call e) := by
      rcases he with ⟨pos, s, rfl⟩ | he
      · rw [evalExpr]
        exact .pure trivial
      · exact (evalExpr_safe hcall e he).mono fun _ _ => trivial
    rw [evalExprs]
    exact hitem.bind fun _ _ => (ih hes).bind fun _ _ => .pure trivial

def Flow.Numeric : Flow → Prop
  | .next v | .ret v => IsNumber v
  | .again => True

theorem loopFor_safe {test : Eval Bool} {pass : Eval Flow} (htest : Safe (fun _ => True) test)
    (hpass : Safe Flow.Numeric pass) (n : Nat) : Safe Flow.Numeric (loopFor test pass n) := by
  induction n with
  | zero => exact .throw .timeout
  | succ n ih =>
    rw [loopFor]
    refine htest.bind fun t _ => .ite (hpass.bind fun flow hflow => ?_) (.pure ⟨0, rfl⟩)
    cases flow with
    | ret v => exact .pure hflow
    | next v => exact ih
    | again => exact ih

mutual

theorem evalStmt_safe (hcall : SafeCalls call) (n : Nat) :
    ∀ x : Stmt, x.Textless → Safe Flow.Numeric (evalStmt call n x)
  | .assign _ name e, h => by
    rw [evalStmt]
    exact (evalExpr_safe hcall e h).bind fun v hv => (assign_safe name hv).bind fun _ _ => .pure hv
  | .ret _ e, h => by
    rw [evalStmt]
    exact (evalExpr_safe hcall e h).bind fun v hv => .pure hv
  | .print _ items, h => by
    rw [evalStmt]
    exact (evalItems_safe hcall h).bind fun _ _ => (printLine_safe _).bind fun _ _ => .pure ⟨0, rfl⟩
  | .again _, _ => by
    rw [evalStmt]
    exact .pure trivial
  | .cond _ test yes none, h => by
    rw [evalStmt]
    exact (evalTest_safe hcall h.1).bind fun _ _ => .ite (evalStmt_safe hcall n yes h.2).inScope (.pure ⟨0, rfl⟩)
  | .cond _ test yes (some no), h => by
    rw [evalStmt]
    exact (evalTest_safe hcall h.1).bind fun _ _ =>
      .ite (evalStmt_safe hcall n yes h.2.1).inScope (evalStmt_safe hcall n no h.2.2).inScope
  | .loop _ test body, h => by
    rw [evalStmt]
    exact loopFor_safe (evalTest_safe hcall h.1) (evalStmt_safe hcall n body h.2).inScope n
  | .block _ declared body, h => by
    rw [evalStmt]
    exact ((evalBindings_safe hcall declared h.1).bind fun _ _ => evalStmts_safe hcall n body h.2).inScope
  | .letIn _ bs body, h => by
    rw [evalStmt]
    exact ((evalBindings_safe hcall bs h.1).bind fun _ _ => evalStmt_safe hcall n body h.2).inScope
termination_by structural x => x

theorem evalStmts_safe (hcall : SafeCalls call) (n : Nat) :
    ∀ xs : List Stmt, textlessStmts xs → Safe Flow.Numeric (evalStmts call n xs)
  | [], _ => by
    rw [evalStmts]
    exact .pure ⟨0, rfl⟩
  | [x], h => by
    rw [evalStmts]
    exact evalStmt_safe hcall n x h.1
  | x :: y :: xs, h => by
    have hxs := evalStmts_safe hcall n (y :: xs) h.2
    rw [evalStmts]
    · refine (evalStmt_safe hcall n x h.1).bind fun flow hflow => ?_
      cases flow with
      | next v => exact hxs
      | again => exact .pure hflow
      | ret v => exact .pure hflow
    · intro hnil
      cases hnil
termination_by structural l => l

end

end Trees

/-! ## Functions -/

theorem evalFunction_safe {call : Calls} (hcall : SafeCalls call) (n : Nat) {f : Function} (hf : f.body.Textless)
    {args : List Value} (hargs : ∀ v ∈ args, IsNumber v) (printed : String) :
    SafeResult (evalFunction call n f args printed) := by
  have hstart : State.Numeric ⟨[(f.proto.params.zip args).reverse], printed⟩ := by
    refine List.forall_mem_singleton.2 fun c hc => hargs c.2 ?_
    exact (List.of_mem_zip (List.mem_reverse.1 hc)).2
  have hbody := evalStmt_safe hcall n f.body hf _ hstart
  unfold evalFunction
  cases h : evalStmt call n f.body ⟨[(f.proto.params.zip args).reverse], printed⟩ with
  | ok flow s =>
    rw [h] at hbody
    cases flow with
    | next v => exact hbody.1
    | ret v => exact hbody.1
    | again => exact .stuck
  | error e s =>
    rw [h] at hbody
    exact hbody

/-- Textless functions give numbers for numbers. -/
theorem callFunction_safe {fs : List Function} (hfs : ∀ f ∈ fs, f.body.Textless) (n : Nat) :
    SafeCalls (callFunction fs n) := by
  induction n with
  | zero =>
    intro name args printed _
    rw [callFunction]
    cases fs.find? fun f => f.proto.name = name with
    | none => exact fun _ h => by cases h
    | some f =>
      dsimp only
      by_cases harity : f.proto.arity = args.length
      · rw [if_pos harity]
        exact Stop.Sober.timeout
      · rw [if_neg harity]
        exact Stop.Sober.stuck
  | succ n ih =>
    intro name args printed hargs
    rw [callFunction]
    cases hf : fs.find? fun f => f.proto.name = name with
    | none => exact fun _ h => by cases h
    | some f =>
      dsimp only
      by_cases harity : f.proto.arity = args.length
      · rw [if_pos harity]
        exact evalFunction_safe ih n (hfs f (List.mem_of_find?_eq_some hf)) hargs printed
      · rw [if_neg harity]
        exact Stop.Sober.stuck

/-- If textless functions end for numbers, then with a number or a fault that is not about a text. -/
theorem exists_outcome {fs : List Function} (hfs : ∀ f ∈ fs, f.body.Textless) {n : Nat} {name : String}
    {args : List Float} {printed printed' : String} {outcome : Except RuntimeError Value}
    (h : callFunction fs n name (args.map .number) printed = result outcome printed') :
    ∃ o : Except RuntimeError Float, outcome = o.map .number ∧ ∀ use, o ≠ .error (.textInArithmetic use) := by
  have hargs : ∀ v ∈ args.map Value.number, IsNumber v := List.forall_mem_map.2 fun x _ => ⟨x, rfl⟩
  have hsafe := callFunction_safe hfs n name _ printed hargs
  rw [h] at hsafe
  cases outcome with
  | ok v =>
    obtain ⟨x, rfl⟩ := hsafe
    exact ⟨.ok x, rfl, fun _ h => by cases h⟩
  | error e =>
    refine ⟨.error e, rfl, ?_⟩
    rintro use ⟨⟩
    exact hsafe use rfl

end Evaluation

end Funclet
