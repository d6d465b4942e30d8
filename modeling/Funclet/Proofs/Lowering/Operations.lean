import Funclet.Proofs.Lowering.Outcome
import Funclet.Proofs.Lowering.Recording
import Funclet.Proofs.Reading.Constituents

/-!
# The names that lowering writes

* `Operation.Named P` : the name that an operation gives to something has `P`;
* `Operates P x y` : whether or not it fails, the step `y` does nothing to the code but such operations, and `x` records
  them; it composes (`Operates.bind`);
* `lowerExpr_operates` … `lowerStmts_operates` : so it is with a tree all names of which have `P`, if the names that
  lowering makes up by itself have it (`madeUp`);
* `lowerFunction_operates` : and with a function, whether or not it fails;
* `lowerFunction_records` : so any function is lowered in the same way when it is recorded.
-/

namespace Funclet

/-- The name that an operation gives to a function, a region or a slot. -/
def Operation.name? : Operation → Option String
  | .declare name _ => some name
  | .addRegion _ label => some label
  | .reserve _ name => some name
  | _ => none

def Operation.Named (P : String → Prop) (op : Operation) : Prop := ∀ name ∈ op.name?, P name

theorem Operation.Named.of_none {P : String → Prop} {op : Operation} (h : op.name? = none) : op.Named P := by
  intro name hname
  rw [h] at hname
  cases hname

theorem Operation.Named.of_some {P : String → Prop} {op : Operation} {name : String} (h : op.name? = some name)
    (hP : P name) : op.Named P := by
  intro name' hname
  rw [h] at hname
  cases hname
  exact hP

namespace Lowering

/-- The names of regions and slots that stand in no text. -/
def madeUp : List String :=
  ["entry", "then", "else", "merge", "loop", "loop.next", "after.loop", "after.return", "after.continue", "if.result",
    "while.cond"]

variable {N : Pos → Prop} {P : String → Prop} {α β : Type}

/-- Whether or not it fails, the step `y` does nothing to the code but operations the names of which have `P`, and `x`
does the same and records them. -/
def Operates (P : String → Prop) (x : CompileWith Recording α) (y : Compile α) : Prop :=
  ∀ s, ∃ ops : List Operation, (∀ op ∈ ops, op.Named P) ∧ Records s ops (x s) (y s.played)

/-! ## Sequences -/

namespace Operates

variable {x : CompileWith Recording α} {y : Compile α}

theorem of_same (h : ∀ s, Records s [] (x s) (y s.played)) : Operates P x y :=
  fun s => ⟨[], List.forall_mem_nil _, h s⟩

theorem assemble {F : Recording → α × Recording} {G : Assembler → α × Assembler} (op : Operation) (hop : op.Named P)
    (hF : ∀ r, F r = ((G r.played).1, r.perform op)) (hG : ∀ a, (G a).2 = a.apply op) :
    Operates P (Lowering.assemble F) (Lowering.assemble G) := by
  intro s
  refine ⟨[op], List.forall_mem_singleton.2 hop, ?_⟩
  have hx : Lowering.assemble F s = .ok (G s.played.assembler).1 (s.operate op) := by
    unfold Lowering.assemble
    rw [hF]
    rfl
  rw [hx, assemble_operate op hG s]
  exact .ok rfl rfl

theorem change {F : Recording → Recording} {G : Assembler → Assembler} (op : Operation) (hop : op.Named P)
    (hF : ∀ r, F r = r.perform op) (hG : ∀ a, G a = a.apply op) : Operates P (assemble_ F) (assemble_ G) :=
  assemble (F := fun r => ((), F r)) (G := fun a => ((), G a)) op hop (fun r => congrArg _ (hF r)) hG

theorem pure (a : α) : Operates P (pure a) (pure a) := .of_same fun s => .ok rfl s.assembler.performAll_nil.symm

theorem throw (d : Diagnostic) : Operates P (throw d : CompileWith Recording α) (throw d) :=
  .of_same fun s => .error rfl s.assembler.performAll_nil.symm

theorem bind {f : α → CompileWith Recording β} {g : α → Compile β} (hx : Operates P x y)
    (hf : ∀ a, Operates P (f a) (g a)) : Operates P (x >>= f) (y >>= g) := by
  intro s
  obtain ⟨ops, hops, h⟩ := hx s
  rw [bind_apply, bind_apply]
  generalize x s = r at h ⊢
  generalize y s.played = r' at h ⊢
  cases h with
  | @ok a t u hplayed ht =>
    subst hplayed
    obtain ⟨more, hmore, h'⟩ := hf a t
    exact ⟨ops ++ more, List.forall_mem_append.2 ⟨hops, hmore⟩, h'.since ht⟩
  | error hplayed ht => exact ⟨ops, hops, .error hplayed ht⟩

/-- The assembler behind the step is the one behind the operations. -/
theorem run (h : Operates P x y) (s : Session) :
    ∃ ops : List Operation, (∀ op ∈ ops, op.Named P) ∧ (after y s).assembler = s.assembler.run ops := by
  obtain ⟨ops, hops, hrec⟩ := h s.recording
  refine ⟨ops, hops, ?_⟩
  rw [s.played_recording] at hrec
  unfold after
  generalize x s.recording = r at hrec
  generalize y s = r' at hrec ⊢
  cases hrec with
  | ok hplayed ht | error hplayed ht =>
    rw [← hplayed, Session.played, ht]
    rfl

end Operates

/-! ## The steps that lowering is made of -/

section Steps

theorem constant_operates (c : Constant) : Operates P (constant c) (constant c) :=
  .assemble (.constant c) (.of_none rfl) (fun _ => rfl) fun _ => rfl

theorem zero_operates : Operates P zero zero := constant_operates _

theorem param_operates (index : Nat) : Operates P (param index) (param index) :=
  .assemble (.param index) (.of_none rfl) (fun _ => rfl) fun _ => rfl

theorem load_operates (slot : SlotId) : Operates P (load slot) (load slot) :=
  .assemble (.load slot) (.of_none rfl) (fun _ => rfl) fun _ => rfl

theorem primitive_operates (op : Primitive) (lhs rhs : ValueId) :
    Operates P (primitive op lhs rhs) (primitive op lhs rhs) :=
  .assemble (.primitive op lhs rhs) (.of_none rfl) (fun _ => rfl) fun _ => rfl

theorem call_operates (callee : FunctionId) (args : List ValueId) : Operates P (call callee args) (call callee args) :=
  .assemble (.call callee args) (.of_none rfl) (fun _ => rfl) fun _ => rfl

theorem truth_operates (v : ValueId) : Operates P (truth v) (truth v) :=
  zero_operates.bind fun _ => primitive_operates _ _ _

theorem store_operates (slot : SlotId) (v : ValueId) : Operates P (store slot v) (store slot v) :=
  .change (.store slot v) (.of_none rfl) (fun _ => rfl) fun _ => rfl

theorem print_operates (items : List ValueId) : Operates P (print items) (print items) :=
  .change (.print items) (.of_none rfl) (fun _ => rfl) fun _ => rfl

theorem close_operates (t : Terminator) : Operates P (close t) (close t) :=
  .change (.close t) (.of_none rfl) (fun _ => rfl) fun _ => rfl

theorem moveTo_operates (place : Place) : Operates P (moveTo place) (moveTo place) :=
  .change (.moveTo place) (.of_none rfl) (fun _ => rfl) fun _ => rfl

theorem region_operates (entry : Place) {label : String} (hl : P label) :
    Operates P (region entry label) (region entry label) :=
  .assemble (.addRegion entry.function label) (.of_some rfl hl) (fun _ => rfl) fun _ => rfl

theorem reserve_operates (entry : Place) {name : String} (hn : P name) :
    Operates P (reserve entry name) (reserve entry name) :=
  .assemble (.reserve entry name) (.of_some rfl hn) (fun _ => rfl) fun _ => rfl

theorem rescope_operates (f : Scopes SlotId → Scopes SlotId) : Operates P (rescope f) (rescope f) :=
  .of_same fun s => .ok rfl s.assembler.performAll_nil.symm

theorem slotOf_operates (pos : Pos) (name : String) : Operates P (slotOf pos name) (slotOf pos name) :=
  .of_same fun s => slotOf_records pos name s

theorem operatorFunction_operates (pos : Pos) (fixity : Fixity) (op : Char) :
    Operates P (operatorFunction pos fixity op) (operatorFunction pos fixity op) :=
  .of_same fun s => operatorFunction_records pos fixity op s

theorem inScope_operates {x : CompileWith Recording α} {y : Compile α} (h : Operates P x y) :
    Operates P (inScope x) (inScope y) :=
  (rescope_operates _).bind fun _ => h.bind fun _ => (rescope_operates _).bind fun _ => .pure _

theorem closeAfter_operates {x : CompileWith Recording Unit} {y : Compile Unit} (h : Operates P x y) (t : Terminator) :
    Operates P (closeAfter x t) (closeAfter y t) := by
  refine Operates.bind (.of_same fun s => .ok rfl s.assembler.performAll_nil.symm) fun closed => ?_
  cases closed with
  | true => exact .pure _
  | false => exact h.bind fun _ => close_operates t

theorem deadRegion_operates (entry : Place) {label : String} (hl : P label) :
    Operates P (deadRegion entry label) (deadRegion entry label) :=
  (region_operates entry hl).bind fun _ => moveTo_operates _

theorem declare_operates (entry : Place) {name : String} (hn : P name) (v : ValueId) :
    Operates P (declare entry name v) (declare entry name v) :=
  (reserve_operates entry hn).bind fun _ => (store_operates _ _).bind fun _ => rescope_operates _

/-- A call declares at most what it calls. -/
theorem resolve_operates (pos : Pos) {name : String} (hn : P name) (n : Nat) :
    Operates P (resolve pos name n) (resolve pos name n) := by
  intro s
  rcases resolve_records pos name n s with h | h
  · exact ⟨[], List.forall_mem_nil _, h⟩
  · exact ⟨[.declare name n], List.forall_mem_singleton.2 (.of_some rfl hn), h⟩

end Steps

/-! ## Trees -/

mutual

theorem lowerExpr_operates (entry : Place) : ∀ e : Expr, e.All N P → Operates P (lowerExpr entry e) (lowerExpr entry e)
  | .number _ _ => fun _ => by
    rw [lowerExpr, lowerExpr]
    exact constant_operates _
  | .text _ _ => fun _ => by
    rw [lowerExpr, lowerExpr]
    exact constant_operates _
  | .var _ _ => fun _ => by
    rw [lowerExpr, lowerExpr]
    exact (slotOf_operates _ _).bind fun _ => load_operates _
  | .unary _ _ e => fun h => by
    rw [lowerExpr, lowerExpr]
    exact (lowerExpr_operates entry e h.2).bind fun _ =>
      (operatorFunction_operates _ _ _).bind fun _ => call_operates _ _
  | .binary pos op l r => fun h => by
    by_cases hop : op = '='
    · subst hop
      by_cases hl : ∃ target name, l = .var target name
      · obtain ⟨target, name, rfl⟩ := hl
        rw [lowerExpr_assign, lowerExpr_assign]
        exact (lowerExpr_operates entry r h.2.2).bind fun _ =>
          (slotOf_operates _ _).bind fun _ => (store_operates _ _).bind fun _ => .pure _
      · have hne : ∀ target name, l ≠ .var target name := fun target name h => hl ⟨target, name, h⟩
        rw [lowerExpr_badDestination entry pos r hne, lowerExpr_badDestination entry pos r hne]
        exact .throw _
    · rw [lowerExpr_binary entry pos l r hop, lowerExpr_binary entry pos l r hop]
      refine (lowerExpr_operates entry l h.2.1).bind fun _ => (lowerExpr_operates entry r h.2.2).bind fun _ => ?_
      split
      · exact primitive_operates _ _ _
      · exact (operatorFunction_operates _ _ _).bind fun _ => call_operates _ _
  | .call pos name args => fun h => by
    rw [lowerExpr, lowerExpr]
    exact (resolve_operates pos h.2.1 _).bind fun _ =>
      (lowerExprs_operates entry args h.2.2).bind fun _ => call_operates _ _
  | .letIn _ bs e => fun h => by
    rw [lowerExpr, lowerExpr]
    exact inScope_operates ((lowerBindings_operates entry bs h.2.1).bind fun _ => lowerExpr_operates entry e h.2.2)
termination_by structural e => e

theorem lowerExprs_operates (entry : Place) :
    ∀ es : List Expr, allExprs N P es → Operates P (lowerExprs entry es) (lowerExprs entry es)
  | [] => fun _ => .pure _
  | e :: es => fun h =>
    (lowerExpr_operates entry e h.1).bind fun _ => (lowerExprs_operates entry es h.2).bind fun _ => .pure _
termination_by structural es => es

theorem lowerBindings_operates (entry : Place) :
    ∀ bs : List Binding, allBindings N P bs → Operates P (lowerBindings entry bs) (lowerBindings entry bs)
  | [] => fun _ => .pure _
  | ⟨_, _, none⟩ :: bs => fun h =>
    zero_operates.bind fun _ => (declare_operates _ h.2.1 _).bind fun _ => lowerBindings_operates entry bs h.2.2
  | ⟨_, _, some e⟩ :: bs => fun h =>
    (lowerExpr_operates entry e h.2.2.1).bind fun _ => (declare_operates _ h.2.1 _).bind fun _ =>
      lowerBindings_operates entry bs h.2.2.2
termination_by structural bs => bs

end

theorem lowerTest_operates (entry : Place) {test : Expr} (h : test.All N P) (flag : SlotId) (yes no : Place) :
    Operates P (lowerTest entry test flag yes no) (lowerTest entry test flag yes no) :=
  (lowerExpr_operates entry test h).bind fun _ => (truth_operates _).bind fun _ =>
    (store_operates _ _).bind fun _ => (load_operates _).bind fun _ => close_operates _

theorem lowerArm_operates (start : Place) (result : SlotId) (merge : Place) {x : CompileWith Recording ValueId}
    {y : Compile ValueId} (h : Operates P x y) :
    Operates P (lowerArm start result merge x) (lowerArm start result merge y) :=
  (moveTo_operates start).bind fun _ => (inScope_operates h).bind fun _ => closeAfter_operates (store_operates _ _) _

theorem lowerParams_operates (entry : Place) (names : List String) (h : ∀ name ∈ names, P name) :
    ∀ index, Operates P (lowerParams entry index names) (lowerParams entry index names) := by
  induction names with
  | nil => exact fun _ => .pure _
  | cons name names ih =>
    intro index
    exact (reserve_operates entry (h name List.mem_cons_self)).bind fun _ => (param_operates _).bind fun _ =>
      (store_operates _ _).bind fun _ => (rescope_operates _).bind fun _ =>
      ih (fun n hn => h n (List.mem_cons_of_mem _ hn)) (index + 1)

mutual

theorem lowerStmt_operates (hP : ∀ name ∈ madeUp, P name) (entry : Place) (retest : Option Place) :
    ∀ st : Stmt, st.All N P → Operates P (lowerStmt entry retest st) (lowerStmt entry retest st)
  | .assign _ _ e => fun h => by
    rw [lowerStmt, lowerStmt]
    exact (lowerExpr_operates entry e h.2.2).bind fun _ =>
      (slotOf_operates _ _).bind fun _ => (store_operates _ _).bind fun _ => .pure _
  | .ret _ e => fun h => by
    rw [lowerStmt, lowerStmt]
    exact (lowerExpr_operates entry e h.2).bind fun _ => (close_operates _).bind fun _ =>
      (deadRegion_operates entry (hP _ (by simp [madeUp]))).bind fun _ => .pure _
  | .print _ items => fun h => by
    rw [lowerStmt, lowerStmt]
    exact (lowerExprs_operates entry items h.2).bind fun _ => (print_operates _).bind fun _ => zero_operates
  | .again _ => fun _ => by
    cases retest with
    | none =>
      rw [lowerStmt, lowerStmt]
      exact .throw _
    | some target =>
      rw [lowerStmt, lowerStmt]
      exact (close_operates _).bind fun _ =>
        (deadRegion_operates entry (hP _ (by simp [madeUp]))).bind fun _ => zero_operates
  | .cond _ test yes none => fun h => by
    rw [lowerStmt, lowerStmt]
    refine (lowerExpr_operates entry test h.2.1).bind fun _ => (truth_operates _).bind fun _ =>
      (reserve_operates entry (hP _ (by simp [madeUp]))).bind fun _ => zero_operates.bind fun _ =>
      (store_operates _ _).bind fun _ => (region_operates entry (hP _ (by simp [madeUp]))).bind fun _ =>
      (region_operates entry (hP _ (by simp [madeUp]))).bind fun _ => (close_operates _).bind fun _ => ?_
    exact (lowerArm_operates _ _ _ (lowerStmt_operates hP entry retest yes h.2.2)).bind fun _ =>
      (moveTo_operates _).bind fun _ => load_operates _
  | .cond _ test yes (some no) => fun h => by
    rw [lowerStmt, lowerStmt]
    refine (lowerExpr_operates entry test h.2.1).bind fun _ => (truth_operates _).bind fun _ =>
      (reserve_operates entry (hP _ (by simp [madeUp]))).bind fun _ => zero_operates.bind fun _ =>
      (store_operates _ _).bind fun _ => (region_operates entry (hP _ (by simp [madeUp]))).bind fun _ =>
      (region_operates entry (hP _ (by simp [madeUp]))).bind fun _ =>
      (region_operates entry (hP _ (by simp [madeUp]))).bind fun _ => (close_operates _).bind fun _ => ?_
    exact (lowerArm_operates _ _ _ (lowerStmt_operates hP entry retest yes h.2.2.1)).bind fun _ =>
      (lowerArm_operates _ _ _ (lowerStmt_operates hP entry retest no h.2.2.2)).bind fun _ =>
      (moveTo_operates _).bind fun _ => load_operates _
  | .loop _ test body => fun h => by
    rw [lowerStmt, lowerStmt]
    refine (reserve_operates entry (hP _ (by simp [madeUp]))).bind fun _ =>
      (region_operates entry (hP _ (by simp [madeUp]))).bind fun _ =>
      (region_operates entry (hP _ (by simp [madeUp]))).bind fun _ =>
      (region_operates entry (hP _ (by simp [madeUp]))).bind fun _ =>
      (lowerTest_operates entry h.2.1 _ _ _).bind fun _ => (moveTo_operates _).bind fun _ => ?_
    exact (inScope_operates (lowerStmt_operates hP entry _ body h.2.2)).bind fun _ =>
      (closeAfter_operates (.pure _) _).bind fun _ => (moveTo_operates _).bind fun _ =>
      (lowerTest_operates entry h.2.1 _ _ _).bind fun _ => (moveTo_operates _).bind fun _ => zero_operates
  | .block _ declared body => fun h => by
    rw [lowerStmt, lowerStmt]
    refine (inScope_operates ((lowerBindings_operates entry declared h.2.1).bind fun _ =>
      lowerStmts_operates hP entry retest body h.2.2)).bind fun last => ?_
    cases last with
    | none => exact zero_operates
    | some v => exact .pure v
  | .letIn _ bs body => fun h => by
    rw [lowerStmt, lowerStmt]
    exact inScope_operates ((lowerBindings_operates entry bs h.2.1).bind fun _ =>
      lowerStmt_operates hP entry retest body h.2.2)
termination_by structural st => st

theorem lowerStmts_operates (hP : ∀ name ∈ madeUp, P name) (entry : Place) (retest : Option Place) :
    ∀ sts : List Stmt, allStmts N P sts → Operates P (lowerStmts entry retest sts) (lowerStmts entry retest sts)
  | [] => fun _ => .pure _
  | st :: sts => fun h =>
    (lowerStmt_operates hP entry retest st h.1).bind fun _ =>
      (lowerStmts_operates hP entry retest sts h.2).bind fun _ => .pure _
termination_by structural sts => sts

end

/-! ## Functions -/

theorem enroll_operates {p : Prototype} (hn : P p.name) : Operates P (enroll p) (enroll p) := by
  intro s
  rcases enroll_records p s with h | h
  · exact ⟨[], List.forall_mem_nil _, h⟩
  · exact ⟨[.declare p.name p.arity], List.forall_mem_singleton.2 (.of_some rfl hn), h⟩

theorem finish_operates (pos : Pos) (id : FunctionId) : Operates P (finish pos id) (finish pos id) := by
  intro s
  refine ⟨[.finish id], List.forall_mem_singleton.2 (.of_none rfl), ?_⟩
  have hrecorded : Emitter.finish s.assembler id =
      (s.assembler.played.finished id, s.assembler.perform (.finish id)) := rfl
  have hplayed : Emitter.finish s.played.assembler id =
      (s.assembler.played.finished id, s.played.assembler.discard id) := rfl
  unfold finish
  rw [hrecorded, hplayed]
  cases s.assembler.played.finished id with
  | ok body => exact .ok (s.played_operate (.finish id)) rfl
  | error e => exact .error (s.played_operate (.finish id)) rfl

section Functions

variable {f : Function} (hP : ∀ name ∈ madeUp, P name) (hname : P f.proto.name) (hf : f.All N P)

include hP hf

theorem lowerCode_operates (entry : Place) : Operates P (lowerCode f entry) (lowerCode f entry) :=
  inScope_operates ((lowerParams_operates entry f.proto.params hf.params 0).bind fun _ =>
    (lowerStmt_operates hP entry none f.body hf.body).bind fun _ => closeAfter_operates (.pure _) _)

theorem lowerBody_operates (id : FunctionId) : Operates P (lowerBody f id) (lowerBody f id) :=
  (region_operates ⟨id, 0⟩ (hP _ (by simp [madeUp]))).bind fun entry => (moveTo_operates _).bind fun _ =>
    (lowerCode_operates hP hf entry).bind fun _ => finish_operates _ _

include hname

/-- What a function does to the code, whether it is lowered or taken back. -/
theorem lowerFunction_operates : Operates P (lowerFunction f) (lowerFunction f) := by
  intro s
  obtain ⟨ops, hops, henroll⟩ := enroll_operates hname { s with scopes := .empty }
  change Records _ _ _ (enroll f.proto { s.played with scopes := .empty }) at henroll
  generalize he : enroll f.proto { s with scopes := .empty } = r at henroll
  generalize he' : enroll f.proto { s.played with scopes := .empty } = r' at henroll
  cases henroll with
  | @error d t u hplayed ht =>
    have hfail : lowerFunction f s = .error d t := by
      unfold lowerFunction
      rw [he]
    have hfail' : lowerFunction f s.played = .error d u := by
      unfold lowerFunction
      rw [he']
    exact ⟨ops, hops, by rw [hfail, hfail']; exact .error hplayed ht⟩
  | @ok o t u hplayed ht =>
    subst hplayed
    obtain ⟨more, hmore, hbody⟩ := lowerBody_operates hP hf o.id (opened f t)
    change Records _ _ _ (lowerBody f o.id (opened f t.played)) at hbody
    have happ : ∀ op ∈ ops ++ more, op.Named P := List.forall_mem_append.2 ⟨hops, hmore⟩
    rw [lowerFunction_eq he, lowerFunction_eq he']
    have hsince : Records s (ops ++ more) _ _ := hbody.since (s := s) ht
    generalize lowerBody f o.id (opened f t) = r at hsince ⊢
    generalize lowerBody f o.id (opened f t.played) = r' at hsince ⊢
    cases hsince with
    | @ok body v w hplayed hv =>
      subst hplayed
      exact ⟨ops ++ more, happ, .ok rfl hv⟩
    | @error d v w hplayed hv =>
      subst hplayed
      have hdiscard : ∀ op ∈ [Operation.discard o.id], op.Named P := List.forall_mem_singleton.2 (.of_none rfl)
      refine ⟨ops ++ more ++ [.discard o.id], List.forall_mem_append.2 ⟨happ, hdiscard⟩, ?_⟩
      have hplayed : (v.withdraw o).played = v.played.withdraw o :=
        congrArg (fun a : Assembler => { v.played with assembler := a, registry := v.registry.withdraw o })
          (v.assembler.played_perform (.discard o.id))
      have hops' : (v.withdraw o).assembler = s.assembler.performAll (ops ++ more ++ [.discard o.id]) := by
        rw [Recording.performAll_append, ← hv]
        rfl
      let note : Note := .functionDiscarded f.proto.name d.cause
      have hundo : (t.played.operators.define f.proto.kind).2 = (t.operators.define f.proto.kind).2 := rfl
      rw [hundo]
      cases (t.operators.define f.proto.kind).2 with
      | none => exact .error (congrArg (fun w : Session => { w with scopes := .empty }.note note) hplayed) hops'
      | some u =>
        exact .error (congrArg (fun w : Session => { w.setOperators (v.operators.undo u) [.operatorRestored u] with
          scopes := .empty }.note note) hplayed) hops'

/-- The body of a function is code that such operations have written. -/
theorem lowerFunction_finished {s s' : Session} {body : Body} (h : lowerFunction f s = .ok body s') :
    ∃ ops : List Operation, ∃ id, (∀ op ∈ ops, op.Named P) ∧ (s.assembler.run ops).finished id = .ok body := by
  obtain ⟨o, s₁, t, he, -, hcode, hfin, -⟩ := lowerFunction_ok h
  obtain ⟨ops, hops, hrun⟩ := (enroll_operates hname).run { s with scopes := .empty }
  obtain ⟨more, hmore, hrun'⟩ :=
    (lowerCode_operates hP hf ((opened f s₁).assembler.addRegion o.id "entry").1).run (begun o.id (opened f s₁))
  rw [after_ok he] at hrun
  rw [after_ok hcode] at hrun'
  let opening : List Operation :=
    [.addRegion o.id "entry", .moveTo ((opened f s₁).assembler.addRegion o.id "entry").1]
  have hopening : ∀ op ∈ opening, op.Named P :=
    List.forall_mem_cons.2 ⟨.of_some rfl (hP _ (by simp [madeUp])),
      List.forall_mem_singleton.2 (.of_none rfl)⟩
  have hall : ∀ op ∈ ops ++ opening ++ more, op.Named P :=
    List.forall_mem_append.2 ⟨List.forall_mem_append.2 ⟨hops, hopening⟩, hmore⟩
  refine ⟨ops ++ opening ++ more, o.id, hall, ?_⟩
  rw [← hfin, hrun', Assembler.run_append, Assembler.run_append]
  change (((({ s with scopes := .empty } : Session).assembler.run ops).run opening).run more).finished o.id = _
  rw [← hrun]
  rfl

end Functions

/-- Whatever the names in a function, its code does the same when it is recorded. -/
theorem lowerCode_records (f : Function) (entry : Place) (s : Session Recording) :
    ∃ ops, Records s ops (lowerCode f entry s) (lowerCode f entry s.played) := by
  have hf : f.All (fun _ => True) fun _ => True := f.all_of_forall (fun _ => trivial) fun _ => trivial
  obtain ⟨ops, -, h⟩ := lowerCode_operates (fun _ _ => trivial) hf entry s
  exact ⟨ops, h⟩

/-- So it is with the function. -/
theorem lowerFunction_records (f : Function) (s : Session Recording) :
    ∃ ops, Records s ops (lowerFunction f s) (lowerFunction f s.played) := by
  have hf : f.All (fun _ => True) fun _ => True := f.all_of_forall (fun _ => trivial) fun _ => trivial
  obtain ⟨ops, -, h⟩ := lowerFunction_operates (fun _ _ => trivial) trivial hf s
  exact ⟨ops, h⟩

end Lowering

end Funclet
