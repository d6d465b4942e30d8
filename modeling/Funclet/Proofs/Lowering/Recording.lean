import Funclet.Proofs.ClosedRegions
import Funclet.Proofs.Lowering.Effects

/-!
# Recording what lowering does

* `Recording` : a code generator that keeps the operations performed since some state of the assembler, and answers as
  the assembler does behind them (`Recording.played`);
* `Session.recording`, `Session.played` : from a session to one that records, and back;
* `Records s ops r r'` : the outcome `r` of a step that has recorded `ops` is the outcome `r'` without a record.
-/

namespace Funclet

/-- A state of the assembler, and the operations that have been performed since. -/
structure Recording where
  start : Assembler
  operations : List Operation

namespace Recording

def played (r : Recording) : Assembler := r.start.run r.operations

def performAll (r : Recording) (ops : List Operation) : Recording := { r with operations := r.operations ++ ops }

def perform (r : Recording) (op : Operation) : Recording := r.performAll [op]

/-- The instructions that have come behind a terminator. -/
def behind (r : Recording) : List Inst := r.start.behind r.operations

instance : Emitter Recording where
  declare r name params := ((r.played.declare name params).1, r.perform (.declare name params))
  addRegion r function label := ((r.played.addRegion function label).1, r.perform (.addRegion function label))
  moveTo r place := r.perform (.moveTo place)
  reserve r place name := ((r.played.reserve place name).1, r.perform (.reserve place name))
  constant r value := ((Emitter.constant r.played value).1, r.perform (.constant value))
  param r index := ((Emitter.param r.played index).1, r.perform (.param index))
  load r slot := ((Emitter.load r.played slot).1, r.perform (.load slot))
  primitive r op lhs rhs := ((Emitter.primitive r.played op lhs rhs).1, r.perform (.primitive op lhs rhs))
  call r callee args := ((Emitter.call r.played callee args).1, r.perform (.call callee args))
  store r slot value := r.perform (.store slot value)
  print r items := r.perform (.print items)
  close r terminator := r.perform (.close terminator)
  isClosed r := r.played.isClosed
  finish r function := (r.played.finished function, r.perform (.finish function))
  discard r function := r.perform (.discard function)

variable (r : Recording) (op : Operation)

theorem performAll_nil : r.performAll [] = r := by simp [performAll]

theorem performAll_append (ops more : List Operation) :
    r.performAll (ops ++ more) = (r.performAll ops).performAll more := by
  simp [performAll]

@[simp] theorem played_perform : (r.perform op).played = r.played.apply op := Assembler.run_append ..

theorem behind_perform :
    (r.perform op).behind = r.behind ++ if r.played.isClosed then (r.played.instruction? op).toList else [] :=
  (Assembler.behind_append ..).trans (congrArg (r.behind ++ ·) (List.append_nil _))

theorem behind_perform_of_open (h : r.played.isClosed = false) : (r.perform op).behind = r.behind := by
  simp [behind_perform, h]

theorem behind_perform_of_none (h : r.played.instruction? op = none) : (r.perform op).behind = r.behind := by
  simp [behind_perform, h]

end Recording

namespace Session

/-- The session with a record in place of the assembler. -/
def recorded (s : Session) (r : Recording) : Session Recording := { s with assembler := r }

/-- The session that records what is done from now on. -/
def recording (s : Session) : Session Recording := s.recorded ⟨s.assembler, []⟩

def played (s : Session Recording) : Session := { s with assembler := s.assembler.played }

theorem played_recording (s : Session) : s.recording.played = s := rfl

def operate (s : Session Recording) (op : Operation) : Session Recording :=
  { s with assembler := s.assembler.perform op }

theorem played_operate (s : Session Recording) (op : Operation) :
    (s.operate op).played = { s.played with assembler := s.played.assembler.apply op } := by
  unfold played operate
  rw [Recording.played_perform]

end Session

namespace Lowering

variable {α : Type}

/-- From `s` on the operations `ops` have been recorded, and the outcome is that of doing the same without a record. -/
inductive Records (s : Session Recording) (ops : List Operation) :
    EStateM.Result Diagnostic (Session Recording) α → EStateM.Result Diagnostic Session α → Prop
  | ok {a : α} {t : Session Recording} {u : Session} (hplayed : t.played = u)
    (hops : t.assembler = s.assembler.performAll ops) : Records s ops (.ok a t) (.ok a u)
  | error {d : Diagnostic} {t : Session Recording} {u : Session} (hplayed : t.played = u)
    (hops : t.assembler = s.assembler.performAll ops) : Records s ops (.error d t) (.error d u)

/-- What is done to the code without a record takes it to where the operation does. -/
theorem assemble_operate {G : Assembler → α × Assembler} (op : Operation) (hG : ∀ a, (G a).2 = a.apply op)
    (s : Session Recording) : assemble G s.played = .ok (G s.played.assembler).1 (s.operate op).played := by
  rw [s.played_operate, ← hG]
  rfl

theorem change_operate {G : Assembler → Assembler} (op : Operation) (hG : ∀ a, G a = a.apply op)
    (s : Session Recording) : assemble_ G s.played = .ok () (s.operate op).played :=
  assemble_operate (G := fun a => ((), G a)) op hG s

variable {s t : Session Recording} {ops more : List Operation} {x : CompileWith Recording α} {y : Compile α}

theorem Records.ok_of (h : Records s ops (x s) (y s.played)) {a : α} (hx : x s = .ok a t) :
    y s.played = .ok a t.played ∧ t.assembler = s.assembler.performAll ops := by
  rw [hx] at h
  generalize y s.played = r at h
  cases h with
  | ok hplayed hops => exact ⟨by rw [hplayed], hops⟩

theorem Records.of_ok (h : Records s ops (x s) (y s.played)) {a : α} {u : Session} (hy : y s.played = .ok a u) :
    ∃ t, x s = .ok a t ∧ t.played = u ∧ t.assembler = s.assembler.performAll ops := by
  rw [hy] at h
  generalize x s = r at h
  cases h with
  | ok hplayed hops => exact ⟨_, rfl, hplayed, hops⟩

theorem Records.of_error (h : Records s ops (x s) (y s.played)) {d : Diagnostic} {u : Session}
    (hy : y s.played = .error d u) : ∃ t, x s = .error d t := by
  rw [hy] at h
  generalize x s = r at h
  cases h with
  | error => exact ⟨_, rfl⟩

/-- A step that at most declares a function writes nothing. -/
theorem Records.declares {name : String} {n : Nat}
    (h : Records s [] (x s) (y s.played) ∨ Records s [.declare name n] (x s) (y s.played)) {a : α}
    (hx : x s = .ok a t) : y s.played = .ok a t.played ∧ t.assembler.behind = s.assembler.behind := by
  rcases h with h | h
  · obtain ⟨hy, ht⟩ := h.ok_of hx
    exact ⟨hy, by rw [ht, Recording.performAll_nil]⟩
  · obtain ⟨hy, ht⟩ := h.ok_of hx
    refine ⟨hy, ?_⟩
    rw [ht]
    exact s.assembler.behind_perform_of_none (.declare name n) rfl

/-- What is recorded from `t` on has been recorded from `s` on. -/
theorem Records.since {r : EStateM.Result Diagnostic (Session Recording) α} {r' : EStateM.Result Diagnostic Session α}
    (h : Records t more r r') (ht : t.assembler = s.assembler.performAll ops) : Records s (ops ++ more) r r' := by
  cases h with
  | ok hplayed hops => exact .ok hplayed (by rw [hops, ht, Recording.performAll_append])
  | error hplayed hops => exact .error hplayed (by rw [hops, ht, Recording.performAll_append])

theorem resolve_records (pos : Pos) (name : String) (n : Nat) (s : Session Recording) :
    Records s [] (resolve pos name n s) (resolve pos name n s.played) ∨
      Records s [.declare name n] (resolve pos name n s) (resolve pos name n s.played) := by
  have hregistry : s.played.registry = s.registry := rfl
  unfold resolve
  rw [hregistry]
  cases s.registry.find? name with
  | some e =>
    dsimp only
    split
    · exact .inl (.ok rfl s.assembler.performAll_nil.symm)
    · exact .inl (.error rfl s.assembler.performAll_nil.symm)
  | none =>
    cases s.registry.settleEntry name n pos with
    | error d => exact .inl (.error rfl s.assembler.performAll_nil.symm)
    | ok R =>
      exact .inr (.ok (congrArg (fun a => Session.note { s.played with registry := _, assembler := a } _)
        (s.assembler.played_perform (.declare name n))) rfl)

theorem enroll_records (p : Prototype) (s : Session Recording) :
    Records s [] (enroll p s) (enroll p s.played) ∨
      Records s [.declare p.name p.arity] (enroll p s) (enroll p s.played) := by
  have hregistry : s.played.registry = s.registry := rfl
  unfold enroll
  rw [hregistry]
  cases s.registry.enroll p with
  | error d => exact .inl (.error rfl s.assembler.performAll_nil.symm)
  | ok R =>
    exact .inr (.ok (congrArg (fun a => Session.record { s.played with registry := _, assembler := a } _)
      (s.assembler.played_perform (.declare p.name p.arity))) rfl)

theorem slotOf_records (pos : Pos) (name : String) (s : Session Recording) :
    Records s [] (slotOf pos name s) (slotOf pos name s.played) := by
  have hscopes : s.played.scopes = s.scopes := rfl
  unfold slotOf
  rw [hscopes]
  cases s.scopes.lookup name with
  | some slot => exact .ok rfl s.assembler.performAll_nil.symm
  | none => exact .error rfl s.assembler.performAll_nil.symm

theorem operatorFunction_records (pos : Pos) (fixity : Fixity) (op : Char) (s : Session Recording) :
    Records s [] (operatorFunction pos fixity op s) (operatorFunction pos fixity op s.played) := by
  have hregistry : s.played.registry = s.registry := rfl
  unfold operatorFunction
  rw [hregistry]
  dsimp only
  split
  · exact .ok rfl s.assembler.performAll_nil.symm
  · exact .error rfl s.assembler.performAll_nil.symm

end Lowering

end Funclet
