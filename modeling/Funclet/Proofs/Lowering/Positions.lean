import Funclet.Proofs.Lowering.Outcome
import Funclet.Proofs.Positions

/-!
# Lowering does not depend on positions

A session `base` goes on with functions, and another time with the same functions from somewhere else.

* `Registry.movedSince`, `Session.movedSince` : the session in which all that is new since `base` stands elsewhere;
* `Session.Since base` : nothing that `base` knows has been forgotten, and what is there under its names is its own;
* `UniformSince base m x y` : where the new is moved by `m`, the step `y` does what `x` does; it composes
  (`UniformSince.bind`);
* `lowerExpr_uniform` … `lowerStmts_uniform` : so it is with a tree and the tree that is moved;
* `lowerFunction_uniform` : and with a function, whether or not it fails.

What is new is told by names: no name is defined twice, and a placeholder is never made again while there is one.
-/

namespace Funclet

variable {m : Pos → Pos}

/-! ## Registries -/

namespace Registry

def Entry.mapPos (m : Pos → Pos) (e : Entry) : Entry := { e with proto := e.proto.mapPos m }

/-- The entry, moved unless there is one in `base` under its name. -/
def moveNew (m : Pos → Pos) (base : OrderedMap String Entry) (name : String) (e : Entry) : Entry :=
  if base.contains name then e else e.mapPos m

/-- The registry in which all that is new since `base` is moved. -/
def movedSince (r base : Registry) (m : Pos → Pos) : Registry :=
  { r with
    confirmed := r.confirmed.mapWith (moveNew m base.confirmed)
    pending := r.pending.mapWith (moveNew m base.pending) }

def Opening.movedSince (o : Opening) (base : Registry) (m : Pos → Pos) : Opening :=
  { o with displaced := o.displaced.map (moveNew m base.pending o.name) }

def moveChecked (base : Registry) (m : Pos → Pos) : Except Diagnostic Registry → Except Diagnostic Registry
  | .ok r => .ok (r.movedSince base m)
  | .error d => .error (d.mapPos m)

variable (base r : Registry)

@[simp]
theorem arity_moveNew (base : OrderedMap String Entry) (name : String) (e : Entry) :
    (moveNew m base name e).proto.arity = e.proto.arity := by
  unfold moveNew
  split <;> rfl

@[simp]
theorem id_moveNew (base : OrderedMap String Entry) (name : String) (e : Entry) :
    (moveNew m base name e).id = e.id := by
  unfold moveNew
  split <;> rfl

theorem movedSince_self : r.movedSince r m = r := by
  have hself (base : OrderedMap String Entry) : base.mapWith (moveNew m base) = base := by
    refine OrderedMap.mapWith_eq_self fun e he => if_pos ?_
    rw [OrderedMap.contains, Option.isSome_iff_ne_none, ne_eq, OrderedMap.get?_eq_none_iff, not_not]
    exact List.mem_map_of_mem he
  unfold movedSince
  rw [hself, hself]

theorem find?_movedSince (name : String) :
    (r.movedSince base m).find? name =
      ((r.confirmed.get? name).map (moveNew m base.confirmed name)).or
        ((r.pending.get? name).map (moveNew m base.pending name)) := by
  rw [find?, movedSince, OrderedMap.get?_mapWith, OrderedMap.get?_mapWith]

theorem find?_movedSince_eq_none {name : String} (h : r.find? name = none) :
    (r.movedSince base m).find? name = none := by
  obtain ⟨hconfirmed, hpending⟩ := (find?_eq_none_iff r name).1 h
  rw [find?_movedSince, hconfirmed, hpending]
  rfl

theorem exists_find?_movedSince {name : String} {e : Entry} (h : r.find? name = some e) :
    ∃ e', (r.movedSince base m).find? name = some e' ∧ e'.proto.arity = e.proto.arity ∧ e'.id = e.id := by
  rw [find?_movedSince]
  unfold find? at h
  cases hconfirmed : r.confirmed.get? name with
  | some e' =>
    rw [hconfirmed] at h
    cases h
    exact ⟨_, rfl, arity_moveNew _ _ e, id_moveNew _ _ e⟩
  | none =>
    rw [hconfirmed, Option.none_or] at h
    rw [h]
    exact ⟨_, rfl, arity_moveNew _ _ e, id_moveNew _ _ e⟩

theorem defined?_movedSince (name : String) : (r.movedSince base m).defined? name = r.defined? name := by
  rw [defined?, defined?, movedSince, OrderedMap.get?_mapWith]
  cases r.confirmed.get? name with
  | none => rfl
  | some e => exact congrArg some (id_moveNew _ _ e)

theorem settleEntry_movedSince (name : String) (arity : Nat) (pos : Pos) :
    (r.movedSince base m).settleEntry name arity (m pos) = moveChecked base m (r.settleEntry name arity pos) := by
  unfold settleEntry
  by_cases hname : name = r.entry
  · have hmoved : name = (r.movedSince base m).entry := hname
    have harity : (r.movedSince base m).entryArity = r.entryArity := rfl
    rw [if_pos hname, if_pos hmoved, harity]
    cases r.entryArity with
    | none => rfl
    | some expected =>
      dsimp only
      split <;> rfl
  · have hmoved : name ≠ (r.movedSince base m).entry := hname
    rw [if_neg hname, if_neg hmoved]
    rfl

theorem enroll_movedSince (p : Prototype) :
    (r.movedSince base m).enroll (p.mapPos m) = moveChecked base m (r.enroll p) := by
  have hpending : ((r.movedSince base m).pending.get? (p.mapPos m).name).filter
        (fun e => e.proto.arity ≠ (p.mapPos m).arity) =
      ((r.pending.get? p.name).filter fun e => e.proto.arity ≠ p.arity).map (moveNew m base.pending p.name) := by
    rw [movedSince, OrderedMap.get?_mapWith]
    change ((r.pending.get? p.name).map (moveNew m base.pending p.name)).filter (fun e => e.proto.arity ≠ p.arity) = _
    cases r.pending.get? p.name with
    | none => rfl
    | some e => by_cases h : e.proto.arity = p.arity <;> simp [Option.filter, h]
  have hfixity : (fixity? (p.mapPos m).kind).filter (fun f => f.arity ≠ (p.mapPos m).arity) =
      (fixity? p.kind).filter fun f => f.arity ≠ p.arity := rfl
  have hconfirmed : (r.movedSince base m).confirmed.contains (p.mapPos m).name = r.confirmed.contains p.name :=
    OrderedMap.contains_mapWith _ _ _
  unfold enroll
  rw [hfixity, hconfirmed, hpending]
  cases (fixity? p.kind).filter fun f => f.arity ≠ p.arity with
  | some f => rfl
  | none =>
    dsimp only
    split
    · rfl
    · cases (r.pending.get? p.name).filter fun e => e.proto.arity ≠ p.arity with
      | none => exact settleEntry_movedSince base r p.name p.arity p.pos
      | some e =>
        dsimp only [Option.map_some]
        rw [arity_moveNew]
        rfl

theorem expectCall_movedSince {name : String} (hname : base.pending.contains name = false) (pos : Pos) (arity : Nat)
    (id : FunctionId) :
    (r.movedSince base m).expectCall (m pos) name arity id = (r.expectCall pos name arity id).movedSince base m := by
  unfold expectCall movedSince
  dsimp only
  rw [OrderedMap.mapWith_insert, moveNew, if_neg (by rw [hname]; decide)]
  rfl

theorem confirm_movedSince {p : Prototype} (hname : base.confirmed.contains p.name = false) (id : FunctionId) :
    (r.movedSince base m).confirm (p.mapPos m) id =
      ((r.confirm p id).1.movedSince base m, (r.confirm p id).2.movedSince base m) := by
  unfold confirm
  dsimp only [Prototype.mapPos]
  refine Prod.ext ?_ ?_
  · dsimp only [Opening.movedSince, movedSince]
    rw [OrderedMap.get?_mapWith, ← OrderedMap.mapWith_erase, OrderedMap.size_mapWith]
  · dsimp only [movedSince]
    rw [OrderedMap.mapWith_erase, OrderedMap.mapWith_insert, moveNew, if_neg (by rw [hname]; decide)]
    rfl

theorem withdraw_movedSince (o : Opening) :
    (r.movedSince base m).withdraw (o.movedSince base m) = (r.withdraw o).movedSince base m := by
  obtain ⟨id, name, displaced, mark, entryArity⟩ := o
  unfold withdraw
  dsimp only [Opening.movedSince, movedSince]
  rw [OrderedMap.mapWith_erase, ← OrderedMap.mapWith_take]
  cases displaced with
  | none => rfl
  | some e =>
    dsimp only [Option.map_some]
    rw [OrderedMap.mapWith_insert]

end Registry

/-! ## Sessions -/

namespace Session

def movedSince (s base : Session) (m : Pos → Pos) : Session :=
  { s with
    registry := s.registry.movedSince base.registry m
    journal := base.journal ++ (s.journal.drop base.journal.length).map (·.mapPos m) }

/-- Nothing that `base` knows has been forgotten, and what stands under a name of `base` still comes from there. -/
structure Since (base s : Session) : Prop where
  confirmed : ∀ name e, base.registry.confirmed.get? name = some e → s.registry.confirmed.get? name = some e
  pending : ∀ name e e', base.registry.pending.get? name = some e → s.registry.pending.get? name = some e' → e' = e
  known : ∀ name, s.registry.find? name = none → base.registry.find? name = none
  journal : base.journal <+: s.journal

variable {base s : Session}

theorem Since.refl (s : Session) : Since s s :=
  ⟨fun _ _ h => h, fun _ _ _ h h' => Option.some.inj (h'.symm.trans h), fun _ h => h, List.prefix_refl _⟩

theorem Since.record (h : Since base s) (events : List Event) : Since base (s.record events) :=
  ⟨h.confirmed, h.pending, h.known, h.journal.trans (List.prefix_append _ _)⟩

theorem movedSince_self (s : Session) : s.movedSince s m = s := by
  unfold movedSince
  rw [Registry.movedSince_self, List.drop_length, List.map_nil, List.append_nil]

theorem record_movedSince (h : base.journal <+: s.journal) (events : List Event) :
    (s.record events).movedSince base m = (s.movedSince base m).record (events.map (·.mapPos m)) := by
  unfold movedSince record
  dsimp only
  rw [List.drop_append_of_le_length h.length_le, List.map_append, List.append_assoc]

theorem note_movedSince (h : base.journal <+: s.journal) (n : Note) :
    (s.note n).movedSince base m = (s.movedSince base m).note n :=
  record_movedSince h [.note n]

theorem Since.setOperators (h : Since base s) (ops : Operators) (notes : List Note) :
    Since base (s.setOperators ops notes) :=
  ⟨h.confirmed, h.pending, h.known, h.journal.trans (List.prefix_append _ _)⟩

theorem setOperators_movedSince (h : base.journal <+: s.journal) (ops : Operators) (notes : List Note) :
    (s.setOperators ops notes).movedSince base m = (s.movedSince base m).setOperators ops notes := by
  unfold setOperators movedSince record
  dsimp only
  rw [List.drop_append_of_le_length h.length_le, List.map_append, List.append_assoc, List.map_map]
  rfl

theorem withdraw_movedSince (o : Registry.Opening) :
    (s.movedSince base m).withdraw (o.movedSince base.registry m) = (s.withdraw o).movedSince base m := by
  unfold withdraw movedSince
  dsimp only
  rw [Registry.withdraw_movedSince]
  rfl

end Session

namespace Lowering

variable {base : Session} {α β : Type}

def moveResult (base : Session) (m : Pos → Pos) :
    EStateM.Result Diagnostic Session α → EStateM.Result Diagnostic Session α
  | .ok a s => .ok a (s.movedSince base m)
  | .error d s => .error (d.mapPos m) (s.movedSince base m)

/-- Where all that is new since `base` is moved, `y` does what `x` does. -/
def UniformSince (base : Session) (m : Pos → Pos) (x y : Compile α) : Prop :=
  ∀ s, base.Since s → y (s.movedSince base m) = moveResult base m (x s) ∧ base.Since (after x s)

/-! ## Sequences -/

namespace UniformSince

theorem bind {x y : Compile α} {f g : α → Compile β} (hx : UniformSince base m x y)
    (hf : ∀ a, UniformSince base m (f a) (g a)) : UniformSince base m (x >>= f) (y >>= g) := by
  intro s hs
  obtain ⟨heq, hsince⟩ := hx s hs
  unfold after at hsince ⊢
  rw [bind_apply, bind_apply, heq]
  cases h : x s with
  | ok a t =>
    rw [h] at hsince
    exact hf a t hsince
  | error d t =>
    rw [h] at hsince
    exact ⟨rfl, hsince⟩

theorem pure (a : α) : UniformSince base m (pure a) (pure a) := fun _ hs => ⟨rfl, hs⟩

theorem throw (d : Diagnostic) : UniformSince (α := α) base m (throw d) (throw (d.mapPos m)) := fun _ hs => ⟨rfl, hs⟩

end UniformSince

/-! ## The steps that lowering is made of -/

/-- A change of the code is the same wherever the text stands. -/
theorem assemble_uniform (f : Assembler → α × Assembler) : UniformSince base m (assemble f) (assemble f) :=
  fun _ hs => ⟨rfl, hs.confirmed, hs.pending, hs.known, hs.journal⟩

theorem change_uniform (f : Assembler → Assembler) : UniformSince base m (assemble_ f) (assemble_ f) :=
  fun _ hs => ⟨rfl, hs.confirmed, hs.pending, hs.known, hs.journal⟩

theorem rescope_uniform (f : Scopes SlotId → Scopes SlotId) : UniformSince base m (rescope f) (rescope f) :=
  fun _ hs => ⟨rfl, hs.confirmed, hs.pending, hs.known, hs.journal⟩

theorem constant_uniform (c : Constant) : UniformSince base m (constant c) (constant c) := assemble_uniform _

theorem zero_uniform : UniformSince base m zero zero := constant_uniform _

theorem truth_uniform (v : ValueId) : UniformSince base m (truth v) (truth v) :=
  zero_uniform.bind fun _ => assemble_uniform _

theorem slotOf_uniform (pos : Pos) (name : String) : UniformSince base m (slotOf pos name) (slotOf (m pos) name) := by
  intro s hs
  unfold after slotOf
  have hscopes : (s.movedSince base m).scopes = s.scopes := rfl
  rw [hscopes]
  cases s.scopes.lookup name with
  | none => exact ⟨rfl, hs⟩
  | some slot => exact ⟨rfl, hs⟩

theorem operatorFunction_uniform (pos : Pos) (fixity : Fixity) (op : Char) :
    UniformSince base m (operatorFunction pos fixity op) (operatorFunction (m pos) fixity op) := by
  intro s hs
  unfold after operatorFunction
  have hdefined (name : String) : (s.movedSince base m).registry.defined? name = s.registry.defined? name :=
    Registry.defined?_movedSince _ _ name
  dsimp only
  rw [hdefined]
  generalize s.registry.defined? _ = found
  cases found with
  | none => exact ⟨rfl, hs⟩
  | some id => exact ⟨rfl, hs⟩

theorem declare_uniform (entry : Place) (name : String) (v : ValueId) :
    UniformSince base m (declare entry name v) (declare entry name v) :=
  (assemble_uniform _).bind fun _ => (change_uniform _).bind fun _ => rescope_uniform _

theorem inScope_uniform {x y : Compile α} (h : UniformSince base m x y) :
    UniformSince base m (inScope x) (inScope y) :=
  (rescope_uniform _).bind fun _ => h.bind fun _ => (rescope_uniform _).bind fun _ => .pure _

theorem closeAfter_uniform {x y : Compile Unit} (h : UniformSince base m x y) (t : Terminator) :
    UniformSince base m (closeAfter x t) (closeAfter y t) := by
  refine UniformSince.bind (x := isClosed) (y := isClosed) (fun _ hs => ⟨rfl, hs⟩) fun closed => ?_
  cases closed with
  | true => exact .pure _
  | false => exact h.bind fun _ => change_uniform _

theorem deadRegion_uniform (entry : Place) (label : String) :
    UniformSince base m (deadRegion entry label) (deadRegion entry label) :=
  (assemble_uniform _).bind fun _ => change_uniform _

/-- A call finds the same function, or makes the same placeholder. -/
theorem resolve_uniform (pos : Pos) (name : String) (n : Nat) :
    UniformSince base m (resolve pos name n) (resolve (m pos) name n) := by
  intro s hs
  unfold after resolve
  have hregistry : (s.movedSince base m).registry = s.registry.movedSince base.registry m := rfl
  rw [hregistry]
  cases hfind : s.registry.find? name with
  | some e =>
    obtain ⟨e', hmoved, harity, hid⟩ := Registry.exists_find?_movedSince (m := m) base.registry _ hfind
    rw [hmoved]
    dsimp only
    rw [harity, hid]
    split
    · exact ⟨rfl, hs⟩
    · exact ⟨rfl, hs⟩
  | none =>
    rw [Registry.find?_movedSince_eq_none _ _ hfind, Registry.settleEntry_movedSince]
    dsimp only
    cases hsettle : s.registry.settleEntry name n pos with
    | error d => exact ⟨rfl, hs⟩
    | ok r =>
      -- The placeholder is new: `base` knows no function that `s` does not know.
      have hpending : base.registry.pending.contains name = false := by
        rw [OrderedMap.contains, ((Registry.find?_eq_none_iff _ _).1 (hs.known name hfind)).2]
        rfl
      obtain rfl := Registry.settleEntry_ok hsettle
      dsimp only [Registry.moveChecked]
      rw [Registry.expectCall_movedSince _ _ hpending]
      have hsince : base.Since { s with
          registry := { s.registry with
            entryArity := s.registry.sighted name n
            pending := s.registry.pending.insert name ⟨.placeholder pos name n, (s.assembler.declare name n).1⟩ }
          assembler := (s.assembler.declare name n).2 } := by
        refine ⟨hs.confirmed, fun j e e' he he' => hs.pending j e e' he ?_, fun j hj => hs.known j ?_, hs.journal⟩
        · rw [OrderedMap.get?_insert, if_neg] at he'
          · exact he'
          · rintro rfl
            rw [OrderedMap.contains, he] at hpending
            cases hpending
        · rw [find?_expect _ _ _ _ hfind] at hj
          split at hj
          · cases hj
          · exact hj
      exact ⟨congrArg (EStateM.Result.ok _) (Session.note_movedSince hsince.journal _).symm, hsince.record _⟩

/-! ## Expressions and statements -/

theorem pos_mapPos (e : Expr) : (e.mapPos m).pos = m e.pos := by
  cases e <;> rfl

theorem length_mapPosExprs (es : List Expr) : (mapPosExprs m es).length = es.length := by
  induction es with
  | nil => rfl
  | cons e es ih => exact congrArg (· + 1) ih

mutual

theorem lowerExpr_uniform (entry : Place) :
    ∀ e : Expr, UniformSince base m (lowerExpr entry e) (lowerExpr entry (e.mapPos m))
  | .number _ _ => by
    rw [Expr.mapPos, lowerExpr, lowerExpr]
    exact constant_uniform _
  | .text _ _ => by
    rw [Expr.mapPos, lowerExpr, lowerExpr]
    exact constant_uniform _
  | .var pos name => by
    rw [Expr.mapPos, lowerExpr, lowerExpr]
    exact (slotOf_uniform pos name).bind fun _ => assemble_uniform _
  | .unary pos op e => by
    rw [Expr.mapPos, lowerExpr, lowerExpr]
    exact (lowerExpr_uniform entry e).bind fun _ => (operatorFunction_uniform pos .unary op).bind fun _ =>
      assemble_uniform _
  | .binary pos op l r => by
    rw [Expr.mapPos]
    by_cases hop : op = '='
    · subst hop
      by_cases hl : ∃ target name, l = .var target name
      · obtain ⟨target, name, rfl⟩ := hl
        rw [Expr.mapPos, lowerExpr_assign, lowerExpr_assign]
        exact (lowerExpr_uniform entry r).bind fun _ => (slotOf_uniform target name).bind fun _ =>
          (change_uniform _).bind fun _ => .pure _
      · have hmoved (target : Pos) (name : String) : l.mapPos m ≠ .var target name := by
          intro h
          cases l with
          | var pos' name' => exact hl ⟨pos', name', rfl⟩
          | number | text | unary | binary | call | letIn => cases h
        rw [lowerExpr_badDestination entry pos r fun target name h => hl ⟨target, name, h⟩,
          lowerExpr_badDestination entry (m pos) (r.mapPos m) hmoved, pos_mapPos]
        exact .throw _
    · rw [lowerExpr_binary entry pos l r hop, lowerExpr_binary entry (m pos) (l.mapPos m) (r.mapPos m) hop]
      refine (lowerExpr_uniform entry l).bind fun _ => (lowerExpr_uniform entry r).bind fun _ => ?_
      cases Primitive.ofSymbol? op with
      | some p => exact assemble_uniform _
      | none => exact (operatorFunction_uniform pos .binary op).bind fun _ => assemble_uniform _
  | .call pos callee args => by
    rw [Expr.mapPos, lowerExpr, lowerExpr, length_mapPosExprs]
    exact (resolve_uniform pos callee _).bind fun _ => (lowerExprs_uniform entry args).bind fun _ => assemble_uniform _
  | .letIn _ bs e => by
    rw [Expr.mapPos, lowerExpr, lowerExpr]
    exact inScope_uniform ((lowerBindings_uniform entry bs).bind fun _ => lowerExpr_uniform entry e)
termination_by structural e => e

theorem lowerExprs_uniform (entry : Place) :
    ∀ es : List Expr, UniformSince base m (lowerExprs entry es) (lowerExprs entry (mapPosExprs m es))
  | [] => by
    rw [mapPosExprs, lowerExprs]
    exact .pure _
  | e :: es => by
    rw [mapPosExprs, lowerExprs, lowerExprs]
    exact (lowerExpr_uniform entry e).bind fun _ => (lowerExprs_uniform entry es).bind fun _ => .pure _
termination_by structural es => es

theorem lowerBindings_uniform (entry : Place) :
    ∀ bs : List Binding, UniformSince base m (lowerBindings entry bs) (lowerBindings entry (mapPosBindings m bs))
  | [] => by
    rw [mapPosBindings, lowerBindings]
    exact .pure _
  | ⟨_, _, none⟩ :: bs => by
    rw [mapPosBindings, lowerBindings, lowerBindings]
    exact zero_uniform.bind fun _ => (declare_uniform _ _ _).bind fun _ => lowerBindings_uniform entry bs
  | ⟨_, _, some e⟩ :: bs => by
    rw [mapPosBindings, lowerBindings, lowerBindings]
    exact (lowerExpr_uniform entry e).bind fun _ => (declare_uniform _ _ _).bind fun _ =>
      lowerBindings_uniform entry bs
termination_by structural bs => bs

end

theorem lowerTest_uniform (entry : Place) (test : Expr) (flag : SlotId) (yes no : Place) :
    UniformSince base m (lowerTest entry test flag yes no) (lowerTest entry (test.mapPos m) flag yes no) :=
  (lowerExpr_uniform entry test).bind fun _ => (truth_uniform _).bind fun _ => (change_uniform _).bind fun _ =>
    (assemble_uniform _).bind fun _ => change_uniform _

theorem lowerArm_uniform {start merge : Place} {result : SlotId} {x y : Compile ValueId} (h : UniformSince base m x y) :
    UniformSince base m (lowerArm start result merge x) (lowerArm start result merge y) :=
  (change_uniform _).bind fun _ => (inScope_uniform h).bind fun _ => closeAfter_uniform (change_uniform _) _

mutual

theorem lowerStmt_uniform (entry : Place) (retest : Option Place) :
    ∀ st : Stmt, UniformSince base m (lowerStmt entry retest st) (lowerStmt entry retest (st.mapPos m))
  | .assign pos name e => by
    rw [Stmt.mapPos, lowerStmt, lowerStmt]
    exact (lowerExpr_uniform entry e).bind fun _ => (slotOf_uniform pos name).bind fun _ =>
      (change_uniform _).bind fun _ => .pure _
  | .ret _ e => by
    rw [Stmt.mapPos, lowerStmt, lowerStmt]
    exact (lowerExpr_uniform entry e).bind fun _ => (change_uniform _).bind fun _ =>
      (deadRegion_uniform entry _).bind fun _ => .pure _
  | .print _ items => by
    rw [Stmt.mapPos, lowerStmt, lowerStmt]
    exact (lowerExprs_uniform entry items).bind fun _ => (change_uniform _).bind fun _ => zero_uniform
  | .again pos => by
    rw [Stmt.mapPos]
    cases retest with
    | none =>
      rw [lowerStmt, lowerStmt]
      exact .throw ⟨.strayContinue, pos⟩
    | some target =>
      rw [lowerStmt, lowerStmt]
      exact (change_uniform _).bind fun _ => (deadRegion_uniform entry _).bind fun _ => zero_uniform
  | .cond _ test yes none => by
    rw [Stmt.mapPos, lowerStmt, lowerStmt]
    refine (lowerExpr_uniform entry test).bind fun _ => (truth_uniform _).bind fun _ =>
      (assemble_uniform _).bind fun _ => zero_uniform.bind fun _ => (change_uniform _).bind fun _ =>
      (assemble_uniform _).bind fun _ => (assemble_uniform _).bind fun _ => (change_uniform _).bind fun _ => ?_
    exact (lowerArm_uniform (lowerStmt_uniform entry retest yes)).bind fun _ => (change_uniform _).bind fun _ =>
      assemble_uniform _
  | .cond _ test yes (some no) => by
    rw [Stmt.mapPos, lowerStmt, lowerStmt]
    refine (lowerExpr_uniform entry test).bind fun _ => (truth_uniform _).bind fun _ =>
      (assemble_uniform _).bind fun _ => zero_uniform.bind fun _ => (change_uniform _).bind fun _ =>
      (assemble_uniform _).bind fun _ => (assemble_uniform _).bind fun _ => (assemble_uniform _).bind fun _ =>
      (change_uniform _).bind fun _ => ?_
    exact (lowerArm_uniform (lowerStmt_uniform entry retest yes)).bind fun _ =>
      (lowerArm_uniform (lowerStmt_uniform entry retest no)).bind fun _ => (change_uniform _).bind fun _ =>
      assemble_uniform _
  | .loop _ test body => by
    rw [Stmt.mapPos, lowerStmt, lowerStmt]
    refine (assemble_uniform _).bind fun _ => (assemble_uniform _).bind fun _ => (assemble_uniform _).bind fun _ =>
      (assemble_uniform _).bind fun _ => (lowerTest_uniform entry test _ _ _).bind fun _ =>
      (change_uniform _).bind fun _ => ?_
    exact (inScope_uniform (lowerStmt_uniform entry _ body)).bind fun _ =>
      (closeAfter_uniform (.pure _) _).bind fun _ => (change_uniform _).bind fun _ =>
      (lowerTest_uniform entry test _ _ _).bind fun _ => (change_uniform _).bind fun _ => zero_uniform
  | .block _ declared body => by
    rw [Stmt.mapPos, lowerStmt, lowerStmt]
    refine (inScope_uniform ((lowerBindings_uniform entry declared).bind fun _ =>
      lowerStmts_uniform entry retest body)).bind fun last => ?_
    cases last with
    | none => exact zero_uniform
    | some v => exact .pure v
  | .letIn _ bs body => by
    rw [Stmt.mapPos, lowerStmt, lowerStmt]
    exact inScope_uniform ((lowerBindings_uniform entry bs).bind fun _ => lowerStmt_uniform entry retest body)
termination_by structural st => st

theorem lowerStmts_uniform (entry : Place) (retest : Option Place) :
    ∀ sts : List Stmt, UniformSince base m (lowerStmts entry retest sts) (lowerStmts entry retest (mapPosStmts m sts))
  | [] => by
    rw [mapPosStmts, lowerStmts]
    exact .pure _
  | st :: sts => by
    rw [mapPosStmts, lowerStmts, lowerStmts]
    exact (lowerStmt_uniform entry retest st).bind fun _ => (lowerStmts_uniform entry retest sts).bind fun _ => .pure _
termination_by structural sts => sts

end

theorem lowerParams_uniform (entry : Place) (names : List String) (index : Nat) :
    UniformSince base m (lowerParams entry index names) (lowerParams entry index names) := by
  induction names generalizing index with
  | nil => exact .pure _
  | cons name names ih =>
    exact (assemble_uniform _).bind fun _ => (assemble_uniform _).bind fun _ => (change_uniform _).bind fun _ =>
      (rescope_uniform _).bind fun _ => ih (index + 1)

theorem finish_uniform (pos : Pos) (id : FunctionId) : UniformSince base m (finish pos id) (finish (m pos) id) := by
  intro s hs
  have hassembler : (s.movedSince base m).assembler = s.assembler := rfl
  unfold after finish
  rw [hassembler]
  rcases Emitter.finish s.assembler id with ⟨e | body, assembler⟩
  · exact ⟨rfl, hs.confirmed, hs.pending, hs.known, hs.journal⟩
  · exact ⟨rfl, hs.confirmed, hs.pending, hs.known, hs.journal⟩

theorem lowerBody_uniform (f : Function) (id : FunctionId) :
    UniformSince base m (lowerBody f id) (lowerBody (f.mapPos m) id) := by
  refine (assemble_uniform _).bind fun entry => (change_uniform _).bind fun _ => UniformSince.bind ?_ fun _ =>
    finish_uniform f.proto.pos id
  exact inScope_uniform ((lowerParams_uniform entry _ 0).bind fun _ =>
    (lowerStmt_uniform entry none f.body).bind fun _ => closeAfter_uniform (.pure _) _)

/-! ## Functions -/

variable {s t : Session} {p : Prototype} {f : Function}

theorem enroll_error_movedSince {d : Diagnostic} (h : enroll p s = .error d t) :
    enroll (p.mapPos m) (s.movedSince base m) = .error (d.mapPos m) (t.movedSince base m) := by
  have hregistry : (s.movedSince base m).registry = s.registry.movedSince base.registry m := rfl
  unfold Funclet.enroll at h ⊢
  rw [hregistry, Registry.enroll_movedSince]
  cases hr : s.registry.enroll p with
  | error e =>
    rw [hr] at h
    cases h
    rfl
  | ok r =>
    rw [hr] at h
    cases h

/-- Whether a placeholder is met does not depend on where it stands. -/
theorem met_movedSince (o : Registry.Opening) (name : String) :
    (if (o.movedSince base.registry m).displaced.isSome then [Event.note (.placeholderMet name)] else []) =
      (if o.displaced.isSome then [Event.note (.placeholderMet name)] else []).map (·.mapPos m) := by
  obtain ⟨id, name', displaced, mark, entryArity⟩ := o
  cases displaced <;> rfl

theorem enroll_ok_movedSince (hs : base.Since s) {o : Registry.Opening} (h : enroll p s = .ok o t) :
    enroll (p.mapPos m) (s.movedSince base m) = .ok (o.movedSince base.registry m) (t.movedSince base m) ∧
      base.Since t := by
  have hregistry : (s.movedSince base m).registry = s.registry.movedSince base.registry m := rfl
  unfold Funclet.enroll at h ⊢
  rw [hregistry, Registry.enroll_movedSince]
  cases hr : s.registry.enroll p with
  | error e =>
    rw [hr] at h
    cases h
  | ok r =>
    rw [hr] at h
    cases h
    obtain ⟨-, hnew, -, rfl⟩ := Registry.enroll_ok hr
    have hconfirmed : base.registry.confirmed.contains p.name = false := by
      refine Bool.eq_false_iff.2 fun hold => ?_
      obtain ⟨e, he⟩ := Option.isSome_iff_exists.1 hold
      have hstill := hs.confirmed p.name e he
      rw [hnew] at hstill
      cases hstill
    dsimp only [Registry.moveChecked]
    rw [Registry.confirm_movedSince _ _ hconfirmed]
    have hsince : base.Since { s with
        registry := { s.registry with
          entryArity := s.registry.sighted p.name p.arity
          pending := s.registry.pending.erase p.name
          confirmed := s.registry.confirmed.insert p.name ⟨p, (s.assembler.declare p.name p.arity).1⟩ }
        assembler := (s.assembler.declare p.name p.arity).2 } := by
      refine ⟨fun j e he => ?_, fun j e e' he he' => hs.pending j e e' he ?_, fun j hj => hs.known j ?_, hs.journal⟩
      · dsimp only
        rw [OrderedMap.get?_insert, if_neg]
        · exact hs.confirmed j e he
        · rintro rfl
          rw [OrderedMap.contains, he] at hconfirmed
          cases hconfirmed
      · rw [OrderedMap.get?_erase] at he'
        split at he'
        · cases he'
        · exact he'
      · rw [find?_confirm] at hj
        split at hj
        · cases hj
        · exact hj
    refine ⟨congrArg (EStateM.Result.ok _) ?_, hsince.record _⟩
    exact Eq.trans (congrArg (Session.record _) (met_movedSince _ _)) (Session.record_movedSince hsince.journal _).symm

/-- A function that fails makes a session forget nothing. -/
theorem Reverted.since (h : Reverted f s t) (hs : base.Since s) (hjournal : base.journal <+: t.journal) :
    base.Since t := by
  refine ⟨fun name e he => ?_, fun name e e' he he' => hs.pending name e e' he ?_, fun name hname => hs.known name ?_,
    hjournal⟩
  · rw [h.confirmed]
    exact hs.confirmed name e he
  · rwa [h.pending] at he'
  · rwa [h.find?] at hname

/-- A function is lowered the same wherever it stands. -/
theorem lowerFunction_uniform (hs : base.Since s) (hl : Linked s.registry s.assembler) (hi : s.assembler.Idle)
    (f : Function) :
    lowerFunction (f.mapPos m) (s.movedSince base m) = moveResult base m (lowerFunction f s) ∧
      base.Since (after (lowerFunction f) s) := by
  have hs₀ : base.Since { s with scopes := .empty } := ⟨hs.confirmed, hs.pending, hs.known, hs.journal⟩
  cases he : enroll f.proto { s with scopes := .empty } with
  | error d s₁ =>
    have hmoved : enroll (f.mapPos m).proto { s.movedSince base m with scopes := .empty } =
      .error (d.mapPos m) (s₁.movedSince base m) := enroll_error_movedSince he
    obtain rfl := enroll_error he
    unfold after lowerFunction
    rw [he, hmoved]
    exact ⟨rfl, hs₀⟩
  | ok o s₁ =>
    obtain ⟨hmoved, hs₁⟩ := enroll_ok_movedSince (m := m) hs₀ he
    have hmoved : enroll (f.mapPos m).proto { s.movedSince base m with scopes := .empty } =
      .ok (o.movedSince base.registry m) (s₁.movedSince base m) := hmoved
    have hopened : opened (f.mapPos m) (s₁.movedSince base m) = (opened f s₁).movedSince base m :=
      (Session.setOperators_movedSince hs₁.journal _ _).symm
    have hid : (o.movedSince base.registry m).id = o.id := rfl
    obtain ⟨hbody, hafter⟩ := lowerBody_uniform (m := m) f o.id (opened f s₁) (hs₁.setOperators _ _)
    rw [lowerFunction_eq hmoved, hopened, hid, hbody]
    unfold after at hafter ⊢
    cases hlow : lowerBody f o.id (opened f s₁) with
    | ok body t =>
      rw [hlow] at hafter
      rw [lowerFunction_eq he, hlow]
      exact ⟨congrArg (EStateM.Result.ok body) (Session.note_movedSince hafter.journal _).symm, hafter.record _⟩
    | error d t =>
      have hundo : ((s₁.movedSince base m).operators.define (f.mapPos m).proto.kind).2 =
        (s₁.operators.define f.proto.kind).2 := rfl
      have heq := lowerFunction_eq he
      rw [hlow] at hafter heq
      rw [hundo]
      dsimp only [moveResult] at hafter heq ⊢
      rw [Session.withdraw_movedSince]
      cases hdefine : (s₁.operators.define f.proto.kind).2 with
      | none =>
        rw [hdefine] at heq
        have hback := lowerFunction_reverted hl hi heq
        rw [heq]
        refine ⟨congrArg (EStateM.Result.error _) ?_, hback.since hs (hafter.journal.trans (List.prefix_append _ _))⟩
        exact (Session.note_movedSince (s := { t.withdraw o with scopes := .empty }) hafter.journal _).symm
      | some u =>
        rw [hdefine] at heq
        have hback := lowerFunction_reverted hl hi heq
        have hjournal : base.journal <+:
            ((t.withdraw o).setOperators (t.operators.undo u) [.operatorRestored u]).journal :=
          hafter.journal.trans (List.prefix_append _ _)
        rw [heq]
        refine ⟨congrArg (EStateM.Result.error _) ?_, hback.since hs (hjournal.trans (List.prefix_append _ _))⟩
        have hrestored := Session.setOperators_movedSince (m := m) (s := t.withdraw o) hafter.journal
          (t.operators.undo u) [.operatorRestored u]
        refine Eq.trans ?_ (Session.note_movedSince (s := { Session.setOperators _ _ _ with scopes := .empty }) hjournal
          _).symm
        exact congrArg (fun x => Session.note { x with scopes := .empty } _) hrestored.symm

end Lowering

end Funclet
