import Mathlib.Logic.Relation
import Funclet.Lowering.Function
import Funclet.Proofs.Registration

/-!
# What lowering can do to a session

* `Effect id` : one change made while the function `id` is lowered; `Effects id` : any number of them;
* `Follows id step` : whether or not `step` fails, it makes only such changes; it composes (`Follows.bind`);
* `declarations_emit` … : writing code leaves the declarations alone;
* `lowerExpr_assign`, `lowerExpr_binary` : the code of a binary expression, by its operator.

Every fact about sessions that has to survive a failure is then a fact about one effect.
-/

namespace Funclet.Lowering

variable {id : FunctionId} {E α β : Type}

/-- One change that lowering the function `id` makes to a session. -/
inductive Effect (id : FunctionId) : Session → Session → Prop
  | emit (s : Session) (define : ValueId → Inst) :
      Effect id s { s with assembler := (s.assembler.emit define).2 }
  | append (s : Session) (i : Inst) : Effect id s { s with assembler := s.assembler.append i }
  | close (s : Session) (t : Terminator) : Effect id s { s with assembler := s.assembler.close t }
  | addRegion (s : Session) (label : String) :
      Effect id s { s with assembler := (s.assembler.addRegion id label).2 }
  | moveTo (s : Session) (r : RegionId) : Effect id s { s with assembler := s.assembler.moveTo ⟨id, r⟩ }
  | reserve (s : Session) (r : RegionId) (name : String) :
      Effect id s { s with assembler := (s.assembler.reserve ⟨id, r⟩ name).2 }
  | rescope (s : Session) (f : Scopes SlotId → Scopes SlotId) : Effect id s { s with scopes := f s.scopes }
  | resolve {s s' : Session} {pos : Pos} {name : String} {n : Nat} {callee : FunctionId}
      (h : resolve pos name n s = .ok callee s') : Effect id s s'

abbrev Effects (id : FunctionId) : Session → Session → Prop := Relation.ReflTransGen (Effect id)

/-- The session after a step, whether or not the step fails. -/
def after (step : CompileWith E α) (s : Session E) : Session E :=
  match step s with
  | .ok _ s' => s'
  | .error _ s' => s'

theorem after_ok {step : CompileWith E α} {s s' : Session E} {x : α} (h : step s = .ok x s') : after step s = s' := by
  rw [after, h]

theorem after_error {step : CompileWith E α} {s s' : Session E} {d : Diagnostic} (h : step s = .error d s') :
    after step s = s' := by
  rw [after, h]

/-- Whether or not it fails, `step` makes only changes for the function `id`. -/
def Follows (id : FunctionId) (step : Compile α) : Prop := ∀ s, Effects id s (after step s)

/-! ## Sequences -/

theorem bind_apply (x : CompileWith E α) (f : α → CompileWith E β) (s : Session E) :
    (x >>= f) s = match x s with
      | .ok a s' => f a s'
      | .error d s' => .error d s' := by
  change EStateM.bind x f s = _
  unfold EStateM.bind
  cases x s <;> rfl

theorem bind_ok {x : CompileWith E α} {f : α → CompileWith E β} {s s' : Session E} {b : β}
    (h : (x >>= f) s = .ok b s') : ∃ a t, x s = .ok a t ∧ f a t = .ok b s' := by
  rw [bind_apply] at h
  cases hx : x s with
  | ok a t => exact ⟨a, t, rfl, by rwa [hx] at h⟩
  | error d t => rw [hx] at h; cases h

theorem pure_ok {a b : α} {s s' : Session} (h : (pure a : Compile α) s = .ok b s') : b = a ∧ s' = s := by
  cases h
  exact ⟨rfl, rfl⟩

theorem Follows.of_effect {step : Compile α} (h : ∀ s, Effect id s (after step s)) : Follows id step :=
  fun s => .single (h s)

/-- A step that leaves the session alone. -/
theorem Follows.of_same {step : Compile α} (h : ∀ s, after step s = s) : Follows id step := by
  intro s
  rw [h s]

theorem Follows.pure (a : α) : Follows id (pure a : Compile α) := .of_same fun _ => rfl

theorem Follows.throw (d : Diagnostic) : Follows id (throw d : Compile α) := .of_same fun _ => rfl

theorem Follows.bind {x : Compile α} {f : α → Compile β} (hx : Follows id x) (hf : ∀ a, Follows id (f a)) :
    Follows id (x >>= f) := by
  intro s
  have hs := hx s
  simp only [after, bind_apply] at hs ⊢
  cases h : x s with
  | ok a t =>
    rw [h] at hs
    exact hs.trans (hf a t)
  | error d t =>
    rw [h] at hs
    exact hs

/-! ## The steps that lowering is made of -/

theorem call_follows (f : FunctionId) (vs : List ValueId) : Follows id (call f vs) :=
  .of_effect fun s => .emit s (.call · f vs)

theorem close_follows (t : Terminator) : Follows id (close t) := .of_effect fun s => .close s t

theorem moveTo_follows (r : RegionId) : Follows id (moveTo ⟨id, r⟩) := .of_effect fun s => .moveTo s r

theorem reserve_follows (entry : Place) (name : String) : Follows entry.function (reserve entry name) :=
  .of_effect fun s => .reserve s entry.region name

theorem rescope_follows (f : Scopes SlotId → Scopes SlotId) : Follows id (rescope f) := .of_effect fun s => .rescope s f

/-- A call that fails leaves the session alone. -/
theorem resolve_error {pos : Pos} {name : String} {n : Nat} {s t : Session} {d : Diagnostic}
    (h : resolve pos name n s = .error d t) : t = s := by
  unfold resolve at h
  split at h
  · split at h <;> cases h
    rfl
  · split at h <;> cases h
    rfl

theorem resolve_follows (pos : Pos) (name : String) (n : Nat) : Follows id (resolve pos name n) := by
  intro s
  cases h : resolve pos name n s with
  | ok f t =>
    rw [after_ok h]
    exact .single (.resolve h)
  | error d t => rw [after_error h, resolve_error h]

theorem after_slotOf (pos : Pos) (name : String) (s : Session) : after (slotOf pos name) s = s := by
  simp only [after, slotOf]
  cases s.scopes.lookup name <;> rfl

theorem slotOf_follows (pos : Pos) (name : String) : Follows id (slotOf pos name) := .of_same (after_slotOf pos name)

theorem after_operatorFunction (pos : Pos) (fixity : Fixity) (op : Char) (s : Session) :
    after (operatorFunction pos fixity op) s = s := by
  unfold after
  generalize h : operatorFunction pos fixity op s = res
  simp only [operatorFunction] at h
  split at h <;> subst h <;> rfl

theorem operatorFunction_follows (pos : Pos) (fixity : Fixity) (op : Char) :
    Follows id (operatorFunction pos fixity op) :=
  .of_same (after_operatorFunction pos fixity op)

/-- A new region of the function is a place in the function. -/
theorem region_follows {entry : Place} {label : String} {f : Place → Compile α}
    (hf : ∀ r, Follows entry.function (f ⟨entry.function, r⟩)) : Follows entry.function (region entry label >>= f) := by
  intro s
  refine .head (.addRegion s label) ?_
  exact hf _ _

/-! ## Code does not touch declarations -/

section Declarations
variable (a : Assembler)

@[simp] theorem declarations_modifyRegion (f : Region → Region) : (a.modifyRegion f).declarations = a.declarations := by
  simp only [Assembler.modifyRegion]
  split
  · rfl
  · split <;> rfl

@[simp] theorem declarations_append (i : Inst) : (a.append i).declarations = a.declarations :=
  declarations_modifyRegion a _

@[simp] theorem declarations_close (t : Terminator) : (a.close t).declarations = a.declarations :=
  declarations_modifyRegion a _

@[simp] theorem declarations_freshValue : a.freshValue.2.declarations = a.declarations := by
  simp only [Assembler.freshValue]
  split <;> rfl

@[simp] theorem declarations_emit (define : ValueId → Inst) : (a.emit define).2.declarations = a.declarations := by
  simp only [Assembler.emit, declarations_append, declarations_freshValue]

end Declarations

/-! ## Binary expressions -/

section Binary

variable {E : Type} [Emitter E]

theorem lowerExpr_assign (entry : Place) (pos target : Pos) (name : String) (r : Expr) :
    lowerExpr entry (.binary pos '=' (.var target name) r) = (show CompileWith E ValueId from do
      let v ← lowerExpr entry r
      let slot ← slotOf target name
      store slot v
      pure v) := by
  rw [lowerExpr, if_pos rfl]

theorem lowerExpr_badDestination (entry : Place) (pos : Pos) {l : Expr} (r : Expr)
    (hl : ∀ target name, l ≠ .var target name) :
    lowerExpr entry (.binary pos '=' l r) = (throw ⟨.badDestination, l.pos⟩ : CompileWith E ValueId) := by
  rw [lowerExpr, if_pos rfl]
  exact hl

theorem lowerExpr_binary (entry : Place) (pos : Pos) {op : Char} (l r : Expr) (hop : op ≠ '=') :
    lowerExpr entry (.binary pos op l r) = (show CompileWith E ValueId from do
      let v ← lowerExpr entry l
      let w ← lowerExpr entry r
      match Primitive.ofSymbol? op with
      | some p => primitive p v w
      | none => do
        let f ← operatorFunction pos .binary op
        call f [v, w]) := by
  cases l <;> exact if_neg hop

end Binary

end Funclet.Lowering
