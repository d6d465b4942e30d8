import Funclet.Proofs.Coherence
import Funclet.Proofs.Lowering.Decisions
import Funclet.Proofs.Lowering.Finished

/-!
# The functions that are accepted

* `Registry.Admits r p` : a function with the signature `p` can be defined (`Registry.enroll_ok_iff`);
* `Registry.Known r p name n` : while `p` is defined, `name` is known to have `n` parameters;
* `Function.Admissible r f` : the signature, the scopes, the loops, the operators and the calls of `f` are in order;
* `lowerFunction_ok_iff` : in every reachable session, a function is lowered if and only if it is admissible.
-/

namespace Funclet

open Lowering

/-! ## Signatures -/

namespace Registry

/-- A function with the signature `p` can be defined. -/
structure Admits (r : Registry) (p : Prototype) : Prop where
  /-- A function for an operator has a parameter for each operand. -/
  operands : ∀ fixity, fixity? p.kind = some fixity → fixity.arity = p.arity
  new : r.confirmed.get? p.name = none
  called : ∀ e, r.pending.get? p.name = some e → e.proto.arity = p.arity
  entry : p.name = r.entry → ∀ n, r.entryArity = some n → p.arity = n

/-- While a function with the signature `p` is defined, `name` is known to have `n` parameters. -/
inductive Known (r : Registry) (p : Prototype) : String → Nat → Prop
  | confirmed {name : String} {e : Entry} (h : r.confirmed.get? name = some e) : Known r p name e.proto.arity
  | pending {name : String} {e : Entry} (h : r.pending.get? name = some e) : Known r p name e.proto.arity
  | itself : Known r p p.name p.arity
  | entry {n : Nat} (h : r.entryArity = some n) : Known r p r.entry n

variable {r : Registry} {p : Prototype}

/-- Of the checks of a signature, the one of the entry function comes last. -/
theorem enroll_eq_settleEntry (hop : ∀ fixity, fixity? p.kind = some fixity → fixity.arity = p.arity)
    (hnew : r.confirmed.get? p.name = none) (hcalled : ∀ e, r.pending.get? p.name = some e → e.proto.arity = p.arity) :
    r.enroll p = r.settleEntry p.name p.arity p.pos := by
  have hfixity : (fixity? p.kind).filter (fun f => f.arity ≠ p.arity) = none := by
    simpa [Option.filter_eq_none_iff] using hop
  have hpending : (r.pending.get? p.name).filter (fun e => e.proto.arity ≠ p.arity) = none := by
    simpa [Option.filter_eq_none_iff] using hcalled
  have hcontains : ¬ r.confirmed.contains p.name = true := by simp [OrderedMap.contains, hnew]
  rw [enroll, hfixity]
  dsimp only
  rw [if_neg hcontains, hpending]

theorem enroll_ok_iff (r : Registry) (p : Prototype) : (∃ r', r.enroll p = .ok r') ↔ r.Admits p := by
  constructor
  · rintro ⟨r', h⟩
    obtain ⟨hop, hnew, hcalled, -⟩ := enroll_ok h
    rw [enroll_eq_settleEntry hop hnew hcalled] at h
    exact ⟨hop, hnew, hcalled, (settleEntry_ok_iff r _ _ _).mp ⟨r', h⟩⟩
  · intro h
    rw [enroll_eq_settleEntry h.operands h.new h.called]
    exact (settleEntry_ok_iff r _ _ _).mpr h.entry

/-- Where names are registered once, and what is known about the entry function is what it is registered with, all that
is known about a name other than the one to be defined is what calls of it are measured by. -/
theorem known_iff {a : Assembler} (hl : Linked r a) (hsettles : r.Settles) (hp : r.Admits p) (name : String) (n : Nat) :
    r.Known p name n ↔ if p.name = name then p.arity = n else r.Expects name n := by
  constructor
  · intro h
    split
    · rename_i hname
      cases h with
      | confirmed h => rw [← hname, hp.new] at h; cases h
      | pending h => exact (hp.called _ (hname ▸ h)).symm
      | itself => rfl
      | entry h => exact hp.entry hname n h
    · rename_i hname
      cases h with
      | confirmed h => exact (expects_of_find? (find?_of_confirmed h) _).mpr rfl
      | pending h => exact (expects_of_find? (hl.find?_of_pending h) _).mpr rfl
      | itself => exact absurd rfl hname
      | entry h =>
        cases hf : r.find? r.entry with
        | none => exact .inr ⟨hf, rfl, h⟩
        | some e =>
          rw [hsettles e hf] at h
          exact (expects_of_find? hf _).mpr (Option.some.inj h)
  · intro h
    split at h
    · rename_i hname
      rw [← hname, ← h]
      exact .itself
    · rcases h with ⟨e, he, rfl⟩ | ⟨-, rfl, h⟩
      · rcases Option.or_eq_some_iff.mp he with hc | ⟨-, hc⟩
        · exact .confirmed hc
        · exact .pending hc
      · exact .entry h

end Registry

/-- An accepted signature is what calls of its name are measured by. -/
theorem expects_enroll {p : Prototype} {s t : Session} {o : Registry.Opening} (h : enroll p s = .ok o t) (name : String)
    (n : Nat) : t.registry.Expects name n ↔ if p.name = name then p.arity = n else s.registry.Expects name n := by
  obtain ⟨-, -, -, hreg, -⟩ := enroll_ok h
  have hfind : ∀ j, t.registry.find? j = if p.name = j then some ⟨p, o.id⟩ else s.registry.find? j := by
    rw [hreg]
    exact find?_confirm _ _ _ _
  rw [Registry.expects_sighted (by rw [hreg]) (by rw [hreg]) hfind]

theorem contains_enroll {p : Prototype} {s t : Session} {o : Registry.Opening} (h : enroll p s = .ok o t)
    (name : String) : t.registry.confirmed.contains name = true ↔
      name = p.name ∨ s.registry.confirmed.contains name = true := by
  obtain ⟨-, -, -, hreg, -⟩ := enroll_ok h
  rw [hreg, OrderedMap.contains, OrderedMap.contains, OrderedMap.get?_insert]
  by_cases hname : p.name = name
  · simp [hname]
  · simp [hname, Ne.symm hname]

/-! ## Functions -/

/-- The function can be accepted where the functions of `r` are registered. -/
structure Function.Admissible (r : Registry) (f : Function) : Prop where
  signature : r.Admits f.proto
  /-- A variable that is read or assigned is bound where it stands. -/
  mentions : ∀ scope name, .mention scope name ∈ f.occurrences → name ∈ scope
  continues : ∀ inLoop, .again inLoop ∈ f.occurrences → inLoop = true
  destinations : ∀ lhs, .destination lhs ∈ f.occurrences → ∃ pos name, lhs = .var pos name
  /-- An operator is built in, or it is the one that the function is for, or its function is defined. -/
  operators : ∀ fixity op, .operator fixity op ∈ f.occurrences → (fixity = .binary ∧ op ∈ builtIn) ∨
    fixity.functionName op = f.proto.name ∨ r.confirmed.contains (fixity.functionName op) = true
  calls : ∀ c ∈ f.body.calls, ∀ d ∈ f.body.calls, c.name = d.name → c.argc = d.argc
  arities : ∀ c ∈ f.body.calls, ∀ n, r.Known f.proto c.name n → c.argc = n

section Admissible

variable {f : Function} {s s₁ : Session} {o : Registry.Opening}

/-- Once the signature is accepted, the rest is whether the occurrences and the calls fit. -/
theorem admissible_iff_fits (hl : Linked s.registry s.assembler) (hsettles : s.registry.Settles)
    (hp : s.registry.Admits f.proto) (he : enroll f.proto { s with scopes := .empty } = .ok o s₁) :
    f.Admissible s.registry ↔ Fits s₁.registry f.occurrences f.body.calls := by
  have hknown : ∀ name n, s.registry.Known f.proto name n ↔ s₁.registry.Expects name n := fun name n =>
    (Registry.known_iff hl hsettles hp name n).trans (expects_enroll he name n).symm
  constructor
  · intro h
    refine ⟨fun u hu => ?_, fun c hc n hn => h.arities c hc n ((hknown _ _).mpr hn), h.calls⟩
    cases u with
    | mention scope name => exact h.mentions scope name hu
    | operator fixity op => exact (h.operators fixity op hu).imp_right (contains_enroll he _).mpr
    | destination lhs => exact h.destinations lhs hu
    | again inLoop => exact h.continues inLoop hu
  · intro h
    exact {
      signature := hp
      mentions := fun _ _ hu => h.valid _ hu
      continues := fun _ hu => h.valid _ hu
      destinations := fun _ hu => h.valid _ hu
      operators := fun _ _ hu => (h.valid _ hu).imp_right (contains_enroll he _).mp
      calls := h.agree.same
      arities := fun c hc n hn => h.agree.known c hc n ((hknown _ _).mp hn) }

theorem finish_unfinished {pos : Pos} {id : FunctionId} {t u : Session} {d : Diagnostic}
    (h : finish pos id t = .error d u) : ∃ e, d.cause = .unfinished e := by
  unfold finish at h
  split at h
  · cases h
  · cases h
    exact ⟨_, rfl⟩

/-- Once the signature is accepted, the function is lowered if its code can be written: that can always be finished. -/
theorem lowerFunction_ok_of_code {t : Session} (hl : Linked s.registry s.assembler) (hi : s.assembler.Idle)
    (he : enroll f.proto { s with scopes := .empty } = .ok o s₁)
    (hcode : lowerCode f ((opened f s₁).assembler.addRegion o.id "entry").1 (begun o.id (opened f s₁)) = .ok () t) :
    ∃ body s', lowerFunction f s = .ok body s' := by
  have hbody : lowerBody f o.id (opened f s₁) = finish f.proto.pos o.id t := by
    rw [lowerBody_eq, bind_apply, hcode]
  have hlower := lowerFunction_eq he
  rw [hbody] at hlower
  cases hfin : finish f.proto.pos o.id t with
  | ok body u =>
    rw [hfin] at hlower
    exact ⟨body, _, hlower⟩
  | error d u =>
    rw [hfin] at hlower
    obtain ⟨e, hcause⟩ := finish_unfinished hfin
    exact absurd hcause (lowerFunction_cause hl hi hlower e)

end Admissible

theorem Session.Reachable.ran {s : Session} (hs : s.Reachable) : ∃ entry strict h, Session.Ran entry strict h s := by
  induction hs with
  | initial entry strict => exact ⟨entry, strict, [], .start⟩
  | record _ events ih =>
    obtain ⟨entry, strict, h, hs⟩ := ih
    exact ⟨entry, strict, h, hs.record events⟩
  | function _ f ih =>
    obtain ⟨entry, strict, h, hs⟩ := ih
    exact ⟨entry, strict, _, hs.function f⟩

/-- In a reachable session, what is known about the entry function is what it is registered with. -/
theorem Session.Reachable.settles {s : Session} (hs : s.Reachable) : s.registry.Settles := by
  obtain ⟨entry, strict, h, hs⟩ := hs.ran
  obtain ⟨answers, -, hrun⟩ := hs.run
  exact ((Moment.sound_start entry strict).run hrun).settles

theorem Session.isSome_compileFunction (s : Session) (f : Function) :
    (s.compileFunction f).1.isSome ↔ ∃ body s', lowerFunction f s = .ok body s' := by
  unfold Session.compileFunction
  cases lowerFunction f s <;> simp

/-- In every reachable session, a function is lowered if and only if it is admissible. -/
theorem lowerFunction_ok_iff {s : Session} (hs : s.Reachable) (f : Function) :
    (∃ body s', lowerFunction f s = .ok body s') ↔ f.Admissible s.registry := by
  have hl := hs.orderly.linked
  have hsees : ∀ o s₁, enroll f.proto { s with scopes := .empty } = .ok o s₁ →
      Sees (begun o.id (opened f s₁)) [] := by
    intro o s₁ he
    obtain ⟨-, -, -, -, -, -, hscopes, -⟩ := enroll_ok he
    refine ⟨[], ?_, rfl⟩
    change s₁.scopes.Represents [] []
    rw [hscopes]
    exact Scopes.represents_empty
  constructor
  · rintro ⟨body, s', h⟩
    obtain ⟨o, s₁, t, he, -, hcode, -⟩ := lowerFunction_ok h
    have hp := (Registry.enroll_ok_iff _ _).mp (enroll_ok he).1
    rw [admissible_iff_fits hl hs.settles hp he]
    exact ((lowerCode_decides f _ _ (hsees o s₁ he)).1 _ _ hcode).fits
  · intro h
    obtain ⟨r, hr⟩ := (Registry.enroll_ok_iff _ _).mpr h.signature
    cases he : enroll f.proto { s with scopes := .empty } with
    | error d s₁ =>
      simp only [enroll, hr] at he
      cases he
    | ok o s₁ =>
      have hfits := (admissible_iff_fits hl hs.settles h.signature he).mp h
      cases hcode : lowerCode f ((opened f s₁).assembler.addRegion o.id "entry").1 (begun o.id (opened f s₁)) with
      | ok u t => exact lowerFunction_ok_of_code hl hs.orderly.idle he hcode
      | error d t => exact absurd hfits ((lowerCode_decides f _ _ (hsees o s₁ he)).2 _ _ hcode)

/-- The body of the entry function binds names in a block and in a loop, and uses an operator whose function calls it
with one argument. What it returns may assign the result of a call, but not use a name of the loop or call `g` with no
argument. -/
theorem lowerFunction_ok_iff_entry :
    let pos : Pos := default
    let read (name : String) : Expr := .var pos name
    let operator : Function := ⟨⟨pos, "binary|", ["x", "y"], .binary '|' 5⟩,
      .ret pos (.call pos "main" [.call pos "g" [read "x"]])⟩
    let main (result : Expr) : Function := ⟨⟨pos, "main", ["n"], .plain⟩,
      .block pos [⟨pos, "a", some (read "n")⟩, ⟨pos, "b", some (read "a")⟩]
        [.loop pos (.binary pos '|' (read "a") (read "b"))
          (.letIn pos [⟨pos, "c", none⟩] (.block pos [] [.assign pos "a" (read "c"), .again pos])),
        .ret pos result]⟩
    let s := ((Session.initial "main" true).compileFunction operator).2
    s.Reachable ∧
      (main (.call pos "g" [.binary pos '=' (read "b") (.call pos "main" [read "a"])])).Admissible s.registry ∧
      ¬ (main (read "c")).Admissible s.registry ∧ ¬ (main (.call pos "g" [])).Admissible s.registry := by
  intro pos read operator main s
  have hs : s.Reachable := (Session.Reachable.initial _ _).function operator
  refine ⟨hs, ?_, ?_, ?_⟩
  all_goals
    rw [← lowerFunction_ok_iff hs, ← Session.isSome_compileFunction]
    decide +kernel +zetaReduce

end Funclet
