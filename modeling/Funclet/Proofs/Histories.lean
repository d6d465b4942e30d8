import Funclet.Proofs.Reading.Attempts
import Funclet.Proofs.Rollback

/-!
# What sessions go through

* `Fate` : a function is lowered, or it fails and is taken back, or it is refused from the start;
* `Undergoes f s fate s'` : all that compiling `f` does to the registry and to the code, for each fate, with the calls
  that are made on the way (`compileFunction_undergoes`);
* `Session.Ran entry strict h s` : `s` is a session that has been given the functions in the history `h`;
* `Ran.text` : texts give functions to a session one by one.
-/

namespace Funclet

open Lowering

inductive Fate where
  | lowered (body : Body)
  /-- Its definition began and was taken back. -/
  | failed
  /-- Its signature was not accepted. -/
  | refused
deriving DecidableEq, Repr

def Fate.body? : Fate → Option Body
  | lowered body => some body
  | failed => none
  | refused => none

namespace Session

def fate (s : Session) (f : Function) : Fate :=
  match (s.compileFunction f).1 with
  | some body => .lowered body
  | none =>
    match s.registry.enroll f.proto with
    | .ok _ => .failed
    | .error _ => .refused

variable {f : Function} {s s' : Session}

theorem fate_lowered {body : Body} (h : lowerFunction f s = .ok body s') : s.fate f = .lowered body := by
  unfold fate compileFunction
  rw [h]

theorem fate_failed {d : Diagnostic} {r : Registry} (h : lowerFunction f s = .error d s')
    (he : s.registry.enroll f.proto = .ok r) : s.fate f = .failed := by
  unfold fate compileFunction
  rw [h, he]

theorem fate_refused {d e : Diagnostic} (h : lowerFunction f s = .error d s')
    (he : s.registry.enroll f.proto = .error e) : s.fate f = .refused := by
  unfold fate compileFunction
  rw [h, he]

theorem body?_fate (s : Session) (f : Function) : (s.fate f).body? = (s.compileFunction f).1 := by
  unfold fate
  cases (s.compileFunction f).1 with
  | some body => rfl
  | none => cases s.registry.enroll f.proto <;> rfl

/-- What compiling `f` does to the registry and to the code. -/
inductive Undergoes (f : Function) (s : Session) : Fate → Session → Prop
  | lowered {s₁ t s' : Session} {o : Registry.Opening} {as : List (Call × FunctionId)} {body : Body}
      (enrolled : enroll f.proto { s with scopes := .empty } = .ok o s₁)
      (asked : Asked o.id (begun o.id (opened f s₁)) as t) (calls : as.map Prod.fst = f.body.calls)
      (finished : t.assembler.finished o.id = .ok body) (registry : s'.registry = t.registry)
      (assembler : s'.assembler = t.assembler.discard o.id) : Undergoes f s (.lowered body) s'
  | failed {s₁ t s' : Session} {o : Registry.Opening} {as : List (Call × FunctionId)}
      (enrolled : enroll f.proto { s with scopes := .empty } = .ok o s₁)
      (asked : Asked o.id (begun o.id (opened f s₁)) as t) (calls : as.map Prod.fst <+: f.body.calls)
      (registry : s'.registry = t.registry.withdraw o) (assembler : s'.assembler = t.assembler.discard o.id) :
      Undergoes f s .failed s'
  | refused {s' : Session} (registry : s'.registry = s.registry) (assembler : s'.assembler = s.assembler) :
      Undergoes f s .refused s'

theorem undergoes_ok {body : Body} (h : lowerFunction f s = .ok body s') : Undergoes f s (.lowered body) s' := by
  obtain ⟨o, s₁, t, he, -, hcode, hfin, rfl⟩ := lowerFunction_ok h
  obtain ⟨as, has, -, hall⟩ := lowerCode_asks f ((opened f s₁).assembler.addRegion o.id "entry").1
    (begun o.id (opened f s₁))
  rw [after_ok hcode] at has
  exact .lowered he has (hall () t hcode) hfin rfl rfl

/-- A body that fails has made the first of its calls, and its code is given up. -/
theorem lowerBody_asked {id : FunctionId} {d : Diagnostic} (h : lowerBody f id s = .error d s') :
    ∃ as t, Asked id (begun id s) as t ∧ as.map Prod.fst <+: f.body.calls ∧ s'.registry = t.registry ∧
      s'.assembler.discard id = t.assembler.discard id := by
  obtain ⟨as, has, hpre, -⟩ := lowerCode_asks f (s.assembler.addRegion id "entry").1 (begun id s)
  rw [lowerBody_eq, bind_apply] at h
  refine ⟨as, _, has, hpre, ?_⟩
  cases hcode : lowerCode f (s.assembler.addRegion id "entry").1 (begun id s) with
  | error e t =>
    rw [hcode] at h
    cases h
    rw [after_error hcode]
    exact ⟨rfl, rfl⟩
  | ok x t =>
    rw [hcode] at h
    obtain rfl := finish_error h
    rw [after_ok hcode]
    exact ⟨rfl, discard_discard _ _⟩

theorem undergoes_error {d : Diagnostic} (h : lowerFunction f s = .error d s') :
    Undergoes f s (s.fate f) (s'.report d) := by
  cases he : enroll f.proto { s with scopes := .empty } with
  | error e s₁ =>
    have hrefused : ∃ e, s.registry.enroll f.proto = .error e := by
      cases hr : s.registry.enroll f.proto with
      | error e => exact ⟨e, rfl⟩
      | ok r =>
        unfold enroll at he
        rw [show ({ s with scopes := .empty } : Session).registry.enroll f.proto = .ok r from hr] at he
        cases he
    obtain ⟨e', he'⟩ := hrefused
    rw [fate_refused h he']
    unfold lowerFunction at h
    rw [he] at h
    cases h
    obtain rfl := enroll_error he
    exact .refused rfl rfl
  | ok o s₁ =>
    obtain ⟨⟨r, hr⟩, -⟩ := enroll_ok he
    rw [fate_failed h hr]
    rw [lowerFunction_eq he] at h
    cases hb : lowerBody f o.id (opened f s₁) with
    | ok body t =>
      rw [hb] at h
      cases h
    | error e u =>
      obtain ⟨as, t, has, hpre, hreg, hasm⟩ := lowerBody_asked hb
      rw [hb] at h
      cases hundo : (s₁.operators.define f.proto.kind).2 with
      | none =>
        simp only [hundo] at h
        cases h
        exact .failed he has hpre (congrArg (·.withdraw o) hreg) hasm
      | some w =>
        simp only [hundo] at h
        cases h
        exact .failed he has hpre (congrArg (·.withdraw o) hreg) hasm

theorem compileFunction_undergoes (s : Session) (f : Function) :
    Undergoes f s (s.fate f) (s.compileFunction f).2 := by
  unfold compileFunction
  cases h : lowerFunction f s with
  | ok body s' =>
    rw [fate_lowered h]
    exact undergoes_ok h
  | error d s' => exact undergoes_error h

end Session

/-! ## Histories -/

/-- The functions that a session has been given, and what became of them. -/
abbrev History := List (Function × Fate)

namespace History

def lowered (h : History) : List Function := (h.filter fun c => c.2.body?.isSome).map Prod.fst

def bodies (h : History) : List Body := h.filterMap fun c => c.2.body?

theorem lowered_append (h k : History) : lowered (h ++ k) = h.lowered ++ k.lowered := by
  rw [lowered, List.filter_append, List.map_append]
  rfl

theorem bodies_append (h k : History) : bodies (h ++ k) = h.bodies ++ k.bodies := List.filterMap_append

end History

namespace Session

/-- A session for the entry function `entry` that has been given the functions in the history. Only the journal can
change in between. -/
inductive Ran (entry : String) (strict : Bool) : History → Session → Prop
  | start : Ran entry strict [] (.initial entry strict)
  | record {h : History} {s : Session} (hs : Ran entry strict h s) (events : List Event) :
      Ran entry strict h (s.record events)
  | function {h : History} {s : Session} (hs : Ran entry strict h s) (f : Function) :
      Ran entry strict (h ++ [(f, s.fate f)]) (s.compileFunction f).2

variable {entry : String} {strict : Bool} {h : History} {s : Session}

theorem Ran.reachable (hs : Ran entry strict h s) : s.Reachable := by
  induction hs with
  | start => exact .initial entry strict
  | record _ events ih => exact ih.record events
  | function _ f ih => exact ih.function f

/-- A session keeps what it was started with. -/
theorem Ran.settings (hs : Ran entry strict h s) : s.strict = strict ∧ s.registry.entry = entry := by
  induction hs with
  | start => exact ⟨rfl, rfl⟩
  | record _ _ ih => exact ih
  | @function h s hs f ih =>
    have horderly := hs.reachable.orderly
    unfold compileFunction
    cases hf : lowerFunction f s with
    | ok body s' =>
      obtain ⟨hstrict, -, hentry, -⟩ := lowerFunction_settings hf
      exact ⟨hstrict.trans ih.1, hentry.trans ih.2⟩
    | error d s' =>
      have hr := lowerFunction_reverted horderly.linked horderly.idle hf
      exact ⟨hr.strict.trans ih.1, hr.entry.trans ih.2⟩

/-- A text gives the session its functions one by one. -/
theorem Ran.text (hs : Ran entry strict h s) (escapes : Bool) (source : String) :
    ∃ more, Ran entry strict (h ++ more) (s.compileText escapes source).2 ∧
      more.bodies = (s.compileText escapes source).1 := by
  refine compileFor_induction
    (I := fun t bodies => ∃ more : History, Ran entry strict (h ++ more) t ∧ more.bodies = bodies)
    ?_ ?_ _ _ s [] .start ⟨[], by rwa [List.append_nil], rfl⟩
  · rintro t bodies events ⟨more, ht, rfl⟩
    exact ⟨more, ht.record events, rfl⟩
  · rintro t bodies f - ⟨more, ht, rfl⟩
    refine ⟨more ++ [(f, t.fate f)], ?_, ?_⟩
    · rw [← List.append_assoc]
      exact ht.function f
    · rw [History.bodies_append, ← body?_fate]
      cases t.fate f <;> rfl

end Session

end Funclet
