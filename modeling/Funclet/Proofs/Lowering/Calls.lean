import Funclet.Proofs.Lowering.Effects

/-!
# The calls that lowering makes

* `Expr.calls`, `Stmt.calls` : the calls in a tree, in the order in which its code makes them;
* `Asked id s as t` : effects from `s` to `t`, with the calls on the way and the functions that they were found to mean;
* `Asks id cs step` : `step` makes the calls `cs`, or the first of them if it fails; it composes (`Asks.bind`);
* `lowerExpr_asks` … `lowerStmts_asks` : lowering makes the calls in its tree, in their order, and only effects whatever
  the tree and wherever it fails (`Asks.follows`).
-/

namespace Funclet

structure Call where
  pos : Pos
  name : String
  argc : Nat
deriving DecidableEq, Repr

def Call.placeholder (c : Call) : Prototype := .placeholder c.pos c.name c.argc

/-! ## Calls in trees -/

mutual

/-- The calls in an expression. A call comes before those in its arguments. -/
def Expr.calls : Expr → List Call
  | .number _ _ => []
  | .text _ _ => []
  | .var _ _ => []
  | .unary _ _ operand => operand.calls
  | .binary _ _ lhs rhs => lhs.calls ++ rhs.calls
  | .call pos callee args => ⟨pos, callee, args.length⟩ :: callsOfExprs args
  | .letIn _ bindings body => callsOfBindings bindings ++ body.calls
termination_by structural e => e

def callsOfExprs : List Expr → List Call
  | [] => []
  | e :: es => e.calls ++ callsOfExprs es
termination_by structural l => l

def callsOfBindings : List Binding → List Call
  | [] => []
  | ⟨_, _, none⟩ :: bs => callsOfBindings bs
  | ⟨_, _, some e⟩ :: bs => e.calls ++ callsOfBindings bs
termination_by structural l => l

end

mutual

/-- The calls in a statement. The condition of a loop stands before its body and again behind it. -/
def Stmt.calls : Stmt → List Call
  | .assign _ _ value => value.calls
  | .ret _ value => value.calls
  | .print _ items => callsOfExprs items
  | .again _ => []
  | .cond _ test yes none => test.calls ++ yes.calls
  | .cond _ test yes (some no) => test.calls ++ (yes.calls ++ no.calls)
  | .loop _ test body => test.calls ++ (body.calls ++ test.calls)
  | .block _ declared body => callsOfBindings declared ++ callsOfStmts body
  | .letIn _ bindings body => callsOfBindings bindings ++ body.calls
termination_by structural s => s

def callsOfStmts : List Stmt → List Call
  | [] => []
  | s :: ss => s.calls ++ callsOfStmts ss
termination_by structural l => l

end

namespace Lowering

variable {id : FunctionId} {α β : Type}

/-- Effects, with the calls on the way and the functions that they were found to mean. -/
inductive Asked (id : FunctionId) : Session → List (Call × FunctionId) → Session → Prop
  | refl (s : Session) : Asked id s [] s
  | code {s t u : Session} {as : List (Call × FunctionId)} (h : Asked id s as t) (he : Effect id t u)
      (hr : u.registry = t.registry) (hd : u.assembler.declarations = t.assembler.declarations) : Asked id s as u
  | call {s t u : Session} {as : List (Call × FunctionId)} {c : Call} {callee : FunctionId} (h : Asked id s as t)
      (hc : resolve c.pos c.name c.argc t = .ok callee u) : Asked id s (as ++ [(c, callee)]) u

theorem Asked.trans {s t u : Session} {as bs : List (Call × FunctionId)} (h₁ : Asked id s as t)
    (h₂ : Asked id t bs u) : Asked id s (as ++ bs) u := by
  induction h₂ with
  | refl => rwa [List.append_nil]
  | code _ he hr hd ih => exact .code ih he hr hd
  | call _ hc ih =>
    rw [← List.append_assoc]
    exact .call ih hc

theorem Asked.effects {s t : Session} {as : List (Call × FunctionId)} (h : Asked id s as t) : Effects id s t := by
  induction h with
  | refl => exact .refl
  | code _ he _ _ ih => exact ih.tail he
  | call _ hc ih => exact ih.tail (.resolve hc)

/-- Whether or not it fails, `step` makes calls in the order of `cs`, and all of them unless it fails. -/
def Asks (id : FunctionId) (cs : List Call) (step : Compile α) : Prop :=
  ∀ s, ∃ as, Asked id s as (after step s) ∧ as.map Prod.fst <+: cs ∧
    ∀ x t, step s = .ok x t → as.map Prod.fst = cs

/-- Calls are effects. -/
theorem Asks.follows {cs : List Call} {step : Compile α} (h : Asks id cs step) : Follows id step := fun s => by
  obtain ⟨as, has, -⟩ := h s
  exact has.effects

/-! ## Sequences -/

variable {cs ds : List Call} {x : Compile α} {f : α → Compile β}

theorem Asks.bind (hx : Asks id cs x) (hf : ∀ a, Asks id ds (f a)) : Asks id (cs ++ ds) (x >>= f) := by
  intro s
  obtain ⟨as, has, hpre, hall⟩ := hx s
  cases h : x s with
  | error d t =>
    have hfail : (x >>= f) s = .error d t := by rw [bind_apply, h]
    rw [after_error h] at has
    refine ⟨as, by rwa [after_error hfail], hpre.trans (List.prefix_append cs ds), fun y u hy => ?_⟩
    rw [hfail] at hy
    cases hy
  | ok a t =>
    have hnext : (x >>= f) s = f a t := by rw [bind_apply, h]
    rw [after_ok h] at has
    obtain ⟨bs, hbs, hpre', hall'⟩ := hf a t
    have hcs : as.map Prod.fst = cs := hall a t h
    refine ⟨as ++ bs, ?_, ?_, fun y u hy => ?_⟩
    · have := has.trans hbs
      rwa [after, ← hnext] at this
    · rw [List.map_append, hcs]
      exact (List.prefix_append_right_inj cs).2 hpre'
    · rw [List.map_append, hcs, hall' y u (hnext ▸ hy)]

/-- A step without calls adds none in front. -/
theorem Asks.andThen (hx : Asks id [] x) (hf : ∀ a, Asks id ds (f a)) : Asks id ds (x >>= f) := hx.bind hf

/-- A step without calls adds none behind. -/
theorem Asks.before (hx : Asks id cs x) (hf : ∀ a, Asks id [] (f a)) : Asks id cs (x >>= f) :=
  List.append_nil cs ▸ hx.bind hf

/-! ## Steps without calls -/

theorem Asks.of_same (h : ∀ s, after x s = s) : Asks id [] x := fun s =>
  ⟨[], by rw [h s]; exact .refl s, List.prefix_rfl, fun _ _ _ => rfl⟩

theorem Asks.pure (a : α) : Asks id [] (pure a : Compile α) := .of_same fun _ => rfl

/-- A step that always fails makes the first of any calls: none. -/
theorem Asks.throw (cs : List Call) (d : Diagnostic) : Asks id cs (throw d : Compile α) := by
  intro s
  refine ⟨[], .refl s, List.nil_prefix, fun a t h => ?_⟩
  cases h

theorem Asks.of_effect (h : ∀ s, Effect id s (after x s))
    (hr : ∀ s, (after x s).registry = s.registry)
    (hd : ∀ s, (after x s).assembler.declarations = s.assembler.declarations) : Asks id [] x := fun s =>
  ⟨[], .code (.refl s) (h s) (hr s) (hd s), List.prefix_rfl, fun _ _ _ => rfl⟩

/-- Constants, parameters, loads, operations and calls of known functions are emitted. -/
theorem emit_asks (define : ValueId → Inst) : Asks id [] (assemble (·.emit define)) :=
  .of_effect (fun s => .emit s define) (fun _ => rfl) fun s => declarations_emit s.assembler define

theorem append_asks (i : Inst) : Asks id [] (assemble_ (·.append i)) :=
  .of_effect (fun s => .append s i) (fun _ => rfl) fun s => declarations_append s.assembler i

theorem close_asks (t : Terminator) : Asks id [] (close t) :=
  .of_effect (fun s => .close s t) (fun _ => rfl) fun s => declarations_close s.assembler t

theorem moveTo_asks (r : RegionId) : Asks id [] (moveTo ⟨id, r⟩) :=
  .of_effect (fun s => .moveTo s r) (fun _ => rfl) fun _ => rfl

theorem reserve_asks (entry : Place) (name : String) : Asks entry.function [] (reserve entry name) :=
  .of_effect (fun s => .reserve s entry.region name) (fun _ => rfl) fun _ => rfl

theorem rescope_asks (f : Scopes SlotId → Scopes SlotId) : Asks id [] (rescope f) :=
  .of_effect (fun s => .rescope s f) (fun _ => rfl) fun _ => rfl

theorem zero_asks : Asks id [] zero := emit_asks (.const · (.number 0))

theorem truth_asks (v : ValueId) : Asks id [] (truth v) := zero_asks.andThen fun _ => emit_asks _

theorem slotOf_asks (pos : Pos) (name : String) : Asks id [] (slotOf pos name) := .of_same (after_slotOf pos name)

theorem operatorFunction_asks (pos : Pos) (fixity : Fixity) (op : Char) :
    Asks id [] (operatorFunction pos fixity op) :=
  .of_same (after_operatorFunction pos fixity op)

/-- A new region of the function is a place in the function. -/
theorem region_asks {entry : Place} {label : String} {f : Place → Compile α}
    (hf : ∀ r, Asks entry.function cs (f ⟨entry.function, r⟩)) :
    Asks entry.function cs (region entry label >>= f) := by
  intro s
  obtain ⟨as, has, hpre, hall⟩ := hf (s.assembler.draft entry.function).regions.size
    { s with assembler := (s.assembler.addRegion entry.function label).2 }
  exact ⟨as, (Asked.code (.refl s) (.addRegion s label) rfl rfl).trans has, hpre, hall⟩

theorem inScope_asks (h : Asks id cs x) : Asks id cs (inScope x) :=
  (rescope_asks _).andThen fun _ => h.before fun _ => (rescope_asks _).andThen fun _ => .pure _

theorem closeAfter_asks {before : Compile Unit} (h : Asks id [] before) (t : Terminator) :
    Asks id [] (closeAfter before t) := by
  refine Asks.andThen (.of_same fun _ => rfl) fun closed => ?_
  cases closed with
  | true => exact .pure _
  | false => exact h.andThen fun _ => close_asks t

theorem deadRegion_asks (entry : Place) (label : String) : Asks entry.function [] (deadRegion entry label) :=
  region_asks fun r => moveTo_asks r

theorem declare_asks (entry : Place) (name : String) (v : ValueId) :
    Asks entry.function [] (declare entry name v) :=
  (reserve_asks entry name).andThen fun _ => (append_asks _).andThen fun _ => rescope_asks _

/-! ## Expressions and statements -/

theorem resolve_asks (pos : Pos) (name : String) (n : Nat) : Asks id [⟨pos, name, n⟩] (resolve pos name n) := by
  intro s
  cases h : resolve pos name n s with
  | ok f t =>
    rw [after_ok h]
    exact ⟨[(⟨pos, name, n⟩, f)], .call (.refl s) h, List.prefix_rfl, fun _ _ _ => rfl⟩
  | error d t =>
    obtain rfl := resolve_error h
    rw [after_error h]
    refine ⟨[], .refl t, List.nil_prefix, fun a u ha => ?_⟩
    cases ha

mutual

theorem lowerExpr_asks (entry : Place) : ∀ e : Expr, Asks entry.function e.calls (lowerExpr entry e)
  | .number _ _ => by
    rw [lowerExpr, Expr.calls]
    exact emit_asks _
  | .text _ _ => by
    rw [lowerExpr, Expr.calls]
    exact emit_asks _
  | .var _ _ => by
    rw [lowerExpr, Expr.calls]
    exact (slotOf_asks _ _).andThen fun _ => emit_asks _
  | .unary _ _ e => by
    rw [lowerExpr, Expr.calls]
    exact (lowerExpr_asks entry e).before fun _ => (operatorFunction_asks _ _ _).andThen fun _ => emit_asks _
  | .binary pos op l r => by
    rw [Expr.calls]
    by_cases hop : op = '='
    · subst hop
      by_cases hl : ∃ target name, l = .var target name
      · obtain ⟨target, name, rfl⟩ := hl
        rw [lowerExpr_assign, Expr.calls, List.nil_append]
        exact (lowerExpr_asks entry r).before fun _ =>
          (slotOf_asks _ _).andThen fun _ => (append_asks _).andThen fun _ => .pure _
      · rw [lowerExpr_badDestination entry pos r fun target name h => hl ⟨target, name, h⟩]
        exact .throw _ _
    · rw [lowerExpr_binary entry pos l r hop]
      refine (lowerExpr_asks entry l).bind fun _ => (lowerExpr_asks entry r).before fun _ => ?_
      split
      · exact emit_asks _
      · exact (operatorFunction_asks _ _ _).andThen fun _ => emit_asks _
  | .call pos name args => by
    rw [lowerExpr, Expr.calls]
    exact (resolve_asks pos name args.length).bind fun _ => (lowerExprs_asks entry args).before fun _ => emit_asks _
  | .letIn _ bs e => by
    rw [lowerExpr, Expr.calls]
    exact inScope_asks ((lowerBindings_asks entry bs).bind fun _ => lowerExpr_asks entry e)
termination_by structural e => e

theorem lowerExprs_asks (entry : Place) :
    ∀ es : List Expr, Asks entry.function (callsOfExprs es) (lowerExprs entry es)
  | [] => by
    rw [lowerExprs, callsOfExprs]
    exact .pure _
  | e :: es => by
    rw [lowerExprs, callsOfExprs]
    exact (lowerExpr_asks entry e).bind fun _ => (lowerExprs_asks entry es).before fun _ => .pure _
termination_by structural es => es

theorem lowerBindings_asks (entry : Place) :
    ∀ bs : List Binding, Asks entry.function (callsOfBindings bs) (lowerBindings entry bs)
  | [] => by
    rw [lowerBindings, callsOfBindings]
    exact .pure _
  | ⟨_, _, none⟩ :: bs => by
    rw [lowerBindings, callsOfBindings]
    exact zero_asks.andThen fun _ => (declare_asks _ _ _).andThen fun _ => lowerBindings_asks entry bs
  | ⟨_, _, some e⟩ :: bs => by
    rw [lowerBindings, callsOfBindings]
    exact (lowerExpr_asks entry e).bind fun _ => (declare_asks _ _ _).andThen fun _ => lowerBindings_asks entry bs
termination_by structural bs => bs

end

theorem lowerTest_asks (entry : Place) (test : Expr) (flag : SlotId) (yes no : Place) :
    Asks entry.function test.calls (lowerTest entry test flag yes no) :=
  (lowerExpr_asks entry test).before fun _ => (truth_asks _).andThen fun _ => (append_asks _).andThen fun _ =>
    (emit_asks _).andThen fun _ => close_asks _

theorem lowerArm_asks {r : RegionId} {result : SlotId} {merge : Place} {arm : Compile ValueId}
    (h : Asks id cs arm) : Asks id cs (lowerArm ⟨id, r⟩ result merge arm) :=
  (moveTo_asks r).andThen fun _ => (inScope_asks h).before fun _ => closeAfter_asks (append_asks _) _

mutual

theorem lowerStmt_asks (entry : Place) (retest : Option Place) :
    ∀ st : Stmt, Asks entry.function st.calls (lowerStmt entry retest st)
  | .assign _ _ e => by
    rw [lowerStmt, Stmt.calls]
    exact (lowerExpr_asks entry e).before fun _ =>
      (slotOf_asks _ _).andThen fun _ => (append_asks _).andThen fun _ => .pure _
  | .ret _ e => by
    rw [lowerStmt, Stmt.calls]
    exact (lowerExpr_asks entry e).before fun _ =>
      (close_asks _).andThen fun _ => (deadRegion_asks entry _).andThen fun _ => .pure _
  | .print _ items => by
    rw [lowerStmt, Stmt.calls]
    exact (lowerExprs_asks entry items).before fun _ => (append_asks _).andThen fun _ => zero_asks
  | .again _ => by
    rw [Stmt.calls]
    cases retest with
    | none =>
      rw [lowerStmt]
      exact .throw _ _
    | some target =>
      rw [lowerStmt]
      exact (close_asks _).andThen fun _ => (deadRegion_asks entry _).andThen fun _ => zero_asks
  | .cond _ test yes none => by
    rw [lowerStmt, Stmt.calls]
    refine (lowerExpr_asks entry test).bind fun _ => (truth_asks _).andThen fun _ =>
      (reserve_asks entry _).andThen fun _ => zero_asks.andThen fun _ => (append_asks _).andThen fun _ =>
      region_asks fun _ => region_asks fun _ => (close_asks _).andThen fun _ => ?_
    exact (lowerArm_asks (lowerStmt_asks entry retest yes)).before fun _ => (moveTo_asks _).andThen fun _ => emit_asks _
  | .cond _ test yes (some no) => by
    rw [lowerStmt, Stmt.calls]
    refine (lowerExpr_asks entry test).bind fun _ => (truth_asks _).andThen fun _ =>
      (reserve_asks entry _).andThen fun _ => zero_asks.andThen fun _ => (append_asks _).andThen fun _ =>
      region_asks fun _ => region_asks fun _ => region_asks fun _ => (close_asks _).andThen fun _ => ?_
    exact (lowerArm_asks (lowerStmt_asks entry retest yes)).bind fun _ =>
      (lowerArm_asks (lowerStmt_asks entry retest no)).before fun _ => (moveTo_asks _).andThen fun _ => emit_asks _
  | .loop _ test body => by
    rw [lowerStmt, Stmt.calls]
    refine (reserve_asks entry _).andThen fun _ => region_asks fun _ => region_asks fun _ =>
      region_asks fun _ => (lowerTest_asks entry test _ _ _).bind fun _ => (moveTo_asks _).andThen fun _ => ?_
    exact (inScope_asks (lowerStmt_asks entry _ body)).bind fun _ =>
      (closeAfter_asks (.pure _) _).andThen fun _ => (moveTo_asks _).andThen fun _ =>
      (lowerTest_asks entry test _ _ _).before fun _ => (moveTo_asks _).andThen fun _ => zero_asks
  | .block _ declared body => by
    rw [lowerStmt, Stmt.calls]
    refine (inScope_asks ((lowerBindings_asks entry declared).bind fun _ =>
      lowerStmts_asks entry retest body)).before fun last => ?_
    cases last with
    | none => exact zero_asks
    | some v => exact .pure v
  | .letIn _ bs body => by
    rw [lowerStmt, Stmt.calls]
    exact inScope_asks ((lowerBindings_asks entry bs).bind fun _ => lowerStmt_asks entry retest body)
termination_by structural st => st

theorem lowerStmts_asks (entry : Place) (retest : Option Place) :
    ∀ sts : List Stmt, Asks entry.function (callsOfStmts sts) (lowerStmts entry retest sts)
  | [] => by
    rw [lowerStmts, callsOfStmts]
    exact .pure _
  | st :: sts => by
    rw [lowerStmts, callsOfStmts]
    exact (lowerStmt_asks entry retest st).bind fun _ => (lowerStmts_asks entry retest sts).before fun _ => .pure _
termination_by structural sts => sts

end

theorem lowerParams_asks (entry : Place) (names : List String) :
    ∀ index, Asks entry.function [] (lowerParams entry index names) := by
  induction names with
  | nil => exact fun _ => .pure _
  | cons name names ih =>
    intro index
    exact (reserve_asks entry name).andThen fun _ => (emit_asks _).andThen fun _ =>
      (append_asks _).andThen fun _ => (rescope_asks _).andThen fun _ => ih (index + 1)

end Lowering

end Funclet
