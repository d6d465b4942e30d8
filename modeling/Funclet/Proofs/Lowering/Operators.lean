import Funclet.Proofs.Lowering.ExpressionCode
import Funclet.Proofs.Lowering.Outcome
import Funclet.Proofs.Reading.Acceptance

/-!
# Lowering finds the functions behind operators

* `Equipped C step` : where the functions `C` are defined, `step` misses no operator, and they stay defined; it composes
  (`Equipped.bind`);
* `lowerExpr_equipped` … `lowerStmts_equipped` : so it is with a tree all operators of which have functions in `C`, or
  are built in;
* `lowerFunction_equipped` : a function whose operators are defined before it does not fail for one of them.
-/

namespace Funclet

/-- The diagnostic does not say that an operator has no meaning. -/
def Diagnostic.KnowsOperators (d : Diagnostic) : Prop := ∀ fixity op, d.cause ≠ .unknownOperator fixity op

namespace Lowering

variable {C : OrderedMap String Registry.Entry} {α β : Type}

def HasUnary (C : OrderedMap String Registry.Entry) (op : Char) : Prop := (C.get? (unaryName op)).isSome

/-- The binary operator is built in, or there is a function for it. -/
def HasBinary (C : OrderedMap String Registry.Entry) (op : Char) : Prop :=
  op = '=' ∨ (Primitive.ofSymbol? op).isSome ∨ (C.get? (binaryName op)).isSome

/-- What can come of a step that misses no operator. -/
def Manages (C : OrderedMap String Registry.Entry) : EStateM.Result Diagnostic Session α → Prop
  | .ok _ s => s.registry.confirmed = C
  | .error d _ => d.KnowsOperators

/-- Where the functions `C` are defined, the step misses no operator. -/
def Equipped (C : OrderedMap String Registry.Entry) (step : Compile α) : Prop :=
  ∀ s : Session, s.registry.confirmed = C → Manages C (step s)

/-! ## Sequences -/

namespace Equipped

theorem bind {x : Compile α} {f : α → Compile β} (hx : Equipped C x) (hf : ∀ a, Equipped C (f a)) :
    Equipped C (x >>= f) := by
  intro s hs
  have h := hx s hs
  rw [bind_apply]
  cases hxs : x s with
  | ok a t =>
    rw [hxs] at h
    exact hf a t h
  | error d t =>
    rw [hxs] at h
    exact h

theorem pure (a : α) : Equipped C (pure a : Compile α) := fun _ hs => hs

theorem throw {d : Diagnostic} (h : d.KnowsOperators) : Equipped C (throw d : Compile α) := fun _ _ => h

end Equipped

/-! ## The steps that lowering is made of -/

theorem assemble_equipped (f : Assembler → α × Assembler) : Equipped C (assemble f) := fun _ hs => hs

theorem change_equipped (f : Assembler → Assembler) : Equipped C (assemble_ f) := fun _ hs => hs

theorem rescope_equipped (f : Scopes SlotId → Scopes SlotId) : Equipped C (rescope f) := fun _ hs => hs

theorem constant_equipped (c : Constant) : Equipped C (constant c) := assemble_equipped _

theorem zero_equipped : Equipped C zero := constant_equipped _

theorem param_equipped (index : Nat) : Equipped C (param index) := assemble_equipped _

theorem load_equipped (slot : SlotId) : Equipped C (load slot) := assemble_equipped _

theorem primitive_equipped (op : Primitive) (l r : ValueId) : Equipped C (primitive op l r) := assemble_equipped _

theorem call_equipped (f : FunctionId) (vs : List ValueId) : Equipped C (call f vs) := assemble_equipped _

theorem truth_equipped (v : ValueId) : Equipped C (truth v) := zero_equipped.bind fun _ => primitive_equipped _ _ _

theorem store_equipped (slot : SlotId) (v : ValueId) : Equipped C (store slot v) := change_equipped _

theorem print_equipped (vs : List ValueId) : Equipped C (print vs) := change_equipped _

theorem close_equipped (t : Terminator) : Equipped C (close t) := change_equipped _

theorem moveTo_equipped (place : Place) : Equipped C (moveTo place) := change_equipped _

theorem reserve_equipped (entry : Place) (name : String) : Equipped C (reserve entry name) := assemble_equipped _

theorem region_equipped (entry : Place) (label : String) : Equipped C (region entry label) := assemble_equipped _

theorem slotOf_equipped (pos : Pos) (name : String) : Equipped C (slotOf pos name) := by
  intro s hs
  unfold slotOf
  cases s.scopes.lookup name with
  | none => exact fun _ _ h => by cases h
  | some slot => exact hs

theorem declare_equipped (entry : Place) (name : String) (v : ValueId) : Equipped C (declare entry name v) :=
  (reserve_equipped entry name).bind fun _ => (store_equipped _ _).bind fun _ => rescope_equipped _

theorem inScope_equipped {step : Compile α} (h : Equipped C step) : Equipped C (inScope step) :=
  (rescope_equipped _).bind fun _ => h.bind fun _ => (rescope_equipped _).bind fun _ => .pure _

theorem closeAfter_equipped {before : Compile Unit} (h : Equipped C before) (t : Terminator) :
    Equipped C (closeAfter before t) := by
  refine Equipped.bind (x := isClosed) (fun _ hs => hs) fun closed => ?_
  cases closed with
  | true => exact .pure _
  | false => exact h.bind fun _ => close_equipped t

theorem deadRegion_equipped (entry : Place) (label : String) : Equipped C (deadRegion entry label) :=
  (region_equipped entry label).bind fun _ => moveTo_equipped _

/-- The function behind an operator is found. -/
theorem operatorFunction_equipped {pos : Pos} (fixity : Fixity) {op : Char}
    (h : (C.get? (fixity.functionName op)).isSome) : Equipped C (operatorFunction pos fixity op) := by
  rintro s rfl
  obtain ⟨e, he⟩ := Option.isSome_iff_exists.1 h
  have hdefined : s.registry.defined? (fixity.functionName op) = some e.id := by
    rw [Registry.defined?, he]
    rfl
  have hok : operatorFunction pos fixity op s = .ok e.id s := by
    cases fixity
    all_goals
      dsimp only [Fixity.functionName] at hdefined
      unfold operatorFunction
      dsimp only
      rw [hdefined]
  rw [hok]
  rfl

theorem settleEntry_knowsOperators {r : Registry} {name : String} {n : Nat} {pos : Pos} {d : Diagnostic}
    (h : r.settleEntry name n pos = .error d) : d.KnowsOperators := by
  unfold Registry.settleEntry at h
  split at h
  · split at h
    · cases h
    · split at h
      · cases h
      · cases h
        exact fun _ _ h => by cases h
  · cases h

theorem resolve_equipped (pos : Pos) (name : String) (n : Nat) : Equipped C (resolve pos name n) := by
  rintro s rfl
  cases h : resolve pos name n s with
  | ok id s' =>
    rcases resolve_ok h with ⟨rfl, -⟩ | ⟨-, -, -, hreg, -⟩
    · rfl
    · change s'.registry.confirmed = _
      rw [hreg]
  | error d s' =>
    unfold resolve at h
    split at h
    · split at h <;> cases h
      exact fun _ _ h => by cases h
    · split at h
      · rename_i hsettle
        cases h
        exact settleEntry_knowsOperators hsettle
      · cases h

/-! ## Expressions and statements -/

mutual

theorem lowerExpr_equipped (entry : Place) :
    ∀ e : Expr, e.Uses (HasUnary C) (HasBinary C) → Equipped C (lowerExpr entry e)
  | .number _ _, _ => by
    rw [lowerExpr]
    exact constant_equipped _
  | .text _ _, _ => by
    rw [lowerExpr]
    exact constant_equipped _
  | .var _ _, _ => by
    rw [lowerExpr]
    exact (slotOf_equipped _ _).bind fun _ => load_equipped _
  | .unary _ _ e, h => by
    rw [lowerExpr]
    exact (lowerExpr_equipped entry e h.2).bind fun _ =>
      (operatorFunction_equipped .unary h.1).bind fun _ => call_equipped _ _
  | .binary pos op l r, h => by
    by_cases hop : op = '='
    · subst hop
      by_cases hl : ∃ target name, l = .var target name
      · obtain ⟨target, name, rfl⟩ := hl
        rw [lowerExpr_assign]
        exact (lowerExpr_equipped entry r h.2.2).bind fun _ => (slotOf_equipped _ _).bind fun _ =>
          (store_equipped _ _).bind fun _ => .pure _
      · rw [lowerExpr_badDestination entry pos r fun target name h => hl ⟨target, name, h⟩]
        exact .throw fun _ _ h => by cases h
    · rw [lowerExpr_binary entry pos l r hop]
      refine (lowerExpr_equipped entry l h.2.1).bind fun _ => (lowerExpr_equipped entry r h.2.2).bind fun _ => ?_
      split
      · exact primitive_equipped _ _ _
      · rename_i hnone
        have hfun : (C.get? (binaryName op)).isSome := by
          rcases h.1 with heq | hprim | hfun
          · exact absurd heq hop
          · rw [hnone] at hprim
            cases hprim
          · exact hfun
        exact (operatorFunction_equipped .binary hfun).bind fun _ => call_equipped _ _
  | .call _ _ args, h => by
    rw [lowerExpr]
    exact (resolve_equipped _ _ _).bind fun _ => (lowerExprs_equipped entry args h).bind fun _ => call_equipped _ _
  | .letIn _ bs e, h => by
    rw [lowerExpr]
    exact inScope_equipped ((lowerBindings_equipped entry bs h.1).bind fun _ => lowerExpr_equipped entry e h.2)
termination_by structural e => e

theorem lowerExprs_equipped (entry : Place) :
    ∀ es : List Expr, usesExprs (HasUnary C) (HasBinary C) es → Equipped C (lowerExprs entry es)
  | [], _ => by
    rw [lowerExprs]
    exact .pure _
  | e :: es, h => by
    rw [lowerExprs]
    exact (lowerExpr_equipped entry e h.1).bind fun _ => (lowerExprs_equipped entry es h.2).bind fun _ => .pure _
termination_by structural es => es

theorem lowerBindings_equipped (entry : Place) :
    ∀ bs : List Binding, usesBindings (HasUnary C) (HasBinary C) bs → Equipped C (lowerBindings entry bs)
  | [], _ => by
    rw [lowerBindings]
    exact .pure _
  | ⟨_, _, none⟩ :: bs, h => by
    rw [lowerBindings]
    exact zero_equipped.bind fun _ => (declare_equipped _ _ _).bind fun _ => lowerBindings_equipped entry bs h
  | ⟨_, _, some e⟩ :: bs, h => by
    rw [lowerBindings]
    exact (lowerExpr_equipped entry e h.1).bind fun _ => (declare_equipped _ _ _).bind fun _ =>
      lowerBindings_equipped entry bs h.2
termination_by structural bs => bs

end

theorem lowerTest_equipped (entry : Place) {test : Expr} (h : test.Uses (HasUnary C) (HasBinary C)) (flag : SlotId)
    (yes no : Place) : Equipped C (lowerTest entry test flag yes no) :=
  (lowerExpr_equipped entry test h).bind fun _ => (truth_equipped _).bind fun _ => (store_equipped _ _).bind fun _ =>
    (load_equipped _).bind fun _ => close_equipped _

theorem lowerArm_equipped {start merge : Place} {result : SlotId} {arm : Compile ValueId} (h : Equipped C arm) :
    Equipped C (lowerArm start result merge arm) :=
  (moveTo_equipped start).bind fun _ => (inScope_equipped h).bind fun _ => closeAfter_equipped (store_equipped _ _) _

mutual

theorem lowerStmt_equipped (entry : Place) (retest : Option Place) :
    ∀ st : Stmt, st.Uses (HasUnary C) (HasBinary C) → Equipped C (lowerStmt entry retest st)
  | .assign _ _ e, h => by
    rw [lowerStmt]
    exact (lowerExpr_equipped entry e h).bind fun _ => (slotOf_equipped _ _).bind fun _ =>
      (store_equipped _ _).bind fun _ => .pure _
  | .ret _ e, h => by
    rw [lowerStmt]
    exact (lowerExpr_equipped entry e h).bind fun _ => (close_equipped _).bind fun _ =>
      (deadRegion_equipped entry _).bind fun _ => .pure _
  | .print _ items, h => by
    rw [lowerStmt]
    exact (lowerExprs_equipped entry items h).bind fun _ => (print_equipped _).bind fun _ => zero_equipped
  | .again _, _ => by
    cases retest with
    | none =>
      rw [lowerStmt]
      exact .throw fun _ _ h => by cases h
    | some target =>
      rw [lowerStmt]
      exact (close_equipped _).bind fun _ => (deadRegion_equipped entry _).bind fun _ => zero_equipped
  | .cond _ test yes none, h => by
    rw [lowerStmt]
    refine (lowerExpr_equipped entry test h.1).bind fun _ => (truth_equipped _).bind fun _ =>
      (reserve_equipped entry _).bind fun _ => zero_equipped.bind fun _ => (store_equipped _ _).bind fun _ =>
      (region_equipped entry _).bind fun _ => (region_equipped entry _).bind fun _ =>
      (close_equipped _).bind fun _ => ?_
    exact (lowerArm_equipped (lowerStmt_equipped entry retest yes h.2)).bind fun _ =>
      (moveTo_equipped _).bind fun _ => load_equipped _
  | .cond _ test yes (some no), h => by
    rw [lowerStmt]
    refine (lowerExpr_equipped entry test h.1).bind fun _ => (truth_equipped _).bind fun _ =>
      (reserve_equipped entry _).bind fun _ => zero_equipped.bind fun _ => (store_equipped _ _).bind fun _ =>
      (region_equipped entry _).bind fun _ => (region_equipped entry _).bind fun _ =>
      (region_equipped entry _).bind fun _ => (close_equipped _).bind fun _ => ?_
    exact (lowerArm_equipped (lowerStmt_equipped entry retest yes h.2.1)).bind fun _ =>
      (lowerArm_equipped (lowerStmt_equipped entry retest no h.2.2)).bind fun _ =>
      (moveTo_equipped _).bind fun _ => load_equipped _
  | .loop _ test body, h => by
    rw [lowerStmt]
    refine (reserve_equipped entry _).bind fun _ => (region_equipped entry _).bind fun _ =>
      (region_equipped entry _).bind fun _ => (region_equipped entry _).bind fun _ =>
      (lowerTest_equipped entry h.1 _ _ _).bind fun _ => (moveTo_equipped _).bind fun _ => ?_
    exact (inScope_equipped (lowerStmt_equipped entry _ body h.2)).bind fun _ =>
      (closeAfter_equipped (.pure _) _).bind fun _ => (moveTo_equipped _).bind fun _ =>
      (lowerTest_equipped entry h.1 _ _ _).bind fun _ => (moveTo_equipped _).bind fun _ => zero_equipped
  | .block _ declared body, h => by
    rw [lowerStmt]
    refine (inScope_equipped ((lowerBindings_equipped entry declared h.1).bind fun _ =>
      lowerStmts_equipped entry retest body h.2)).bind fun last => ?_
    cases last with
    | none => exact zero_equipped
    | some v => exact .pure v
  | .letIn _ bs body, h => by
    rw [lowerStmt]
    exact inScope_equipped ((lowerBindings_equipped entry bs h.1).bind fun _ =>
      lowerStmt_equipped entry retest body h.2)
termination_by structural st => st

theorem lowerStmts_equipped (entry : Place) (retest : Option Place) :
    ∀ sts : List Stmt, usesStmts (HasUnary C) (HasBinary C) sts → Equipped C (lowerStmts entry retest sts)
  | [], _ => by
    rw [lowerStmts]
    exact .pure _
  | st :: sts, h => by
    rw [lowerStmts]
    exact (lowerStmt_equipped entry retest st h.1).bind fun _ =>
      (lowerStmts_equipped entry retest sts h.2).bind fun _ => .pure _
termination_by structural sts => sts

end

theorem lowerParams_equipped (entry : Place) (names : List String) :
    ∀ index, Equipped C (lowerParams entry index names) := by
  induction names with
  | nil => exact fun _ => .pure _
  | cons name names ih =>
    intro index
    exact (reserve_equipped entry name).bind fun _ => (param_equipped index).bind fun _ =>
      (store_equipped _ _).bind fun _ => (rescope_equipped _).bind fun _ => ih (index + 1)

/-! ## Functions -/

theorem finish_equipped (pos : Pos) (id : FunctionId) : Equipped C (finish pos id) := by
  intro s hs
  unfold finish
  split
  · exact hs
  · exact fun _ _ h => by cases h

theorem lowerBody_equipped {f : Function} (h : f.body.Uses (HasUnary C) (HasBinary C)) (id : FunctionId) :
    Equipped C (lowerBody f id) := by
  refine (assemble_equipped _).bind fun entry => (moveTo_equipped entry).bind fun _ => Equipped.bind ?_ fun _ =>
    finish_equipped _ _
  exact inScope_equipped ((lowerParams_equipped entry _ 0).bind fun _ =>
    (lowerStmt_equipped entry none f.body h).bind fun _ => closeAfter_equipped (.pure _) _)

theorem enroll_knowsOperators {p : Prototype} {s s' : Session} {d : Diagnostic} (h : enroll p s = .error d s') :
    d.KnowsOperators := by
  unfold Funclet.enroll at h
  split at h
  · rename_i d' hd
    cases h
    unfold Registry.enroll at hd
    split at hd
    · cases hd
      exact fun _ _ h => by cases h
    · split at hd
      · cases hd
        exact fun _ _ h => by cases h
      · split at hd
        · cases hd
          exact fun _ _ h => by cases h
        · exact settleEntry_knowsOperators hd
  · cases h

/-- A function whose operators are defined before it does not fail for one of them. -/
theorem lowerFunction_equipped {f : Function} {s s' : Session} {d : Diagnostic}
    (hf : f.body.Uses (HasUnary s.registry.confirmed) (HasBinary s.registry.confirmed))
    (h : lowerFunction f s = .error d s') : d.KnowsOperators := by
  cases he : enroll f.proto { s with scopes := .empty } with
  | error d₁ s₁ =>
    unfold lowerFunction at h
    rw [he] at h
    cases h
    exact enroll_knowsOperators he
  | ok o s₁ =>
    obtain ⟨-, -, -, hreg, -⟩ := enroll_ok he
    have hstays (name : String) (hname : (s.registry.confirmed.get? name).isSome) :
        (s₁.registry.confirmed.get? name).isSome := by
      rw [hreg, OrderedMap.get?_insert]
      split
      · rfl
      · exact hname
    have hbody : f.body.Uses (HasUnary s₁.registry.confirmed) (HasBinary s₁.registry.confirmed) :=
      Stmt.Uses.mono (fun _ => hstays _) (fun _ => Or.imp_right (Or.imp_right (hstays _))) f.body hf
    have hlower := lowerBody_equipped hbody o.id (opened f s₁) rfl
    rw [lowerFunction_eq he] at h
    cases hb : lowerBody f o.id (opened f s₁) with
    | ok body t =>
      rw [hb] at h
      cases h
    | error e t =>
      rw [hb] at h hlower
      cases h
      exact hlower

end Lowering

end Funclet
