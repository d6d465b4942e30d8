import Funclet.Compiler
import Funclet.Proofs.Lowering.Outcome

/-!
# A failed function leaves no trace

* `Session.Reachable` : the sessions that compiling any functions leads to, whether they fail or not;
* `Session.Reachable.orderly` : in them the registry and the declarations agree, and no code is under construction;
* `NoTrace f s s'` : all that later functions can observe is in `s'`, after `f` has failed, as it was in `s`;
* `lowerFunction_noTrace` : a function that fails leaves no trace in a reachable session.
-/

namespace Funclet

open Lowering

namespace Session

/-- The sessions that compiling functions leads to. Only the journal can change in between. -/
inductive Reachable : Session → Prop
  | initial (entry : String) (strict : Bool) : Reachable (.initial entry strict)
  | record {s : Session} (h : Reachable s) (events : List Event) : Reachable (s.record events)
  | function {s : Session} (h : Reachable s) (f : Function) : Reachable (s.compileFunction f).2

/-- The state of a session between two functions. -/
structure Orderly (s : Session) : Prop where
  linked : Linked s.registry s.assembler
  idle : s.assembler.Idle

theorem Orderly.compileFunction {s : Session} (h : s.Orderly) (f : Function) : (s.compileFunction f).2.Orderly := by
  unfold Session.compileFunction
  cases hf : lowerFunction f s with
  | ok body s' => exact ⟨lowerFunction_linked h.linked hf, lowerFunction_idle h.idle hf⟩
  | error d s' =>
    have hback := lowerFunction_reverted h.linked h.idle hf
    exact ⟨hback.linked, hback.idle⟩

theorem Reachable.orderly {s : Session} (h : s.Reachable) : s.Orderly := by
  induction h with
  | initial entry strict => exact ⟨linked_empty entry, rfl, rfl⟩
  | record _ events ih => exact ⟨ih.linked, ih.idle⟩
  | function _ f ih => exact ih.compileFunction f

end Session

/-- Declarations that are only added to keep their numbers. -/
theorem Assembler.Indexed.declaration?_of_signatures {a a' : Assembler} (h : a'.Indexed)
    {ds : List (FunctionId × String)}
    (hs : a'.declarations.map Assembler.signature = a.declarations.map Assembler.signature ++ ds) {name : String}
    {d : Declaration} (hd : a.declaration? name = some d) :
    ∃ d', a'.declaration? name = some d' ∧ d'.id = d.id := by
  have hmem : Assembler.signature d ∈ a'.declarations.map Assembler.signature := by
    rw [hs]
    exact List.mem_append_left _ (List.mem_map_of_mem (List.mem_of_find?_eq_some hd))
  obtain ⟨d', hd', heq⟩ := List.mem_map.mp hmem
  have hid : d'.id = d.id := congrArg Prod.fst heq
  have hname : d'.name = name := (congrArg Prod.snd heq).trans (declaration?_name hd)
  refine ⟨d', ?_, hid⟩
  rw [← hname]
  exact h.declaration?_of_mem hd'

/-- After the failure of `f`, a session `s'` answers as the session `s` before it does. -/
structure NoTrace (f : Function) (s s' : Session) : Prop where
  precedence : ∀ t, s'.operators.precedence? t = s.operators.precedence? t
  unary : ∀ t, s'.operators.isUnary t = s.operators.isUnary t
  confirmed : s'.registry.confirmed = s.registry.confirmed
  /-- The same placeholders, each with its signature and its number, though their order may have changed. -/
  pending : ∀ name, s'.registry.pending.get? name = s.registry.pending.get? name
  pendingOnce : s'.registry.pending.entries.Perm s.registry.pending.entries
  scopes : s'.scopes = .empty
  /-- The number of parameters that an accepted signature settles for the entry function stays. -/
  entryArity : s'.registry.entryArity = s.registry.entryArity ∨
    f.proto.name = s.registry.entry ∧ (∃ r, s.registry.enroll f.proto = .ok r) ∧
      s'.registry.entryArity = some f.proto.arity
  drafts : s'.assembler.drafts = .empty
  cursor : s'.assembler.cursor = none
  /-- Numbers are never reused, and calls that have been written stay right. -/
  declared : ∀ name d, s.assembler.declaration? name = some d →
    ∃ d', s'.assembler.declaration? name = some d' ∧ d'.id = d.id ∧
      (s.registry.find? name ≠ none → d'.params = d.params)

theorem lowerFunction_noTrace {f : Function} {s s' : Session} {d : Diagnostic} (hs : s.Reachable)
    (h : lowerFunction f s = .error d s') : NoTrace f s s' := by
  have hl := hs.orderly.linked
  have hback := lowerFunction_reverted hl hs.orderly.idle h
  refine ⟨?_, ?_, hback.confirmed, hback.pending, ?_, hback.scopes, ?_, hback.idle.drafts, hback.idle.cursor, ?_⟩
  · intro t
    rw [hback.operators]
  · intro t
    rw [hback.operators]
  · rcases hback.registry with hr | ⟨-, hr⟩ <;> rw [hr]
    exact Registry.reverted_perm hl.pending _
  · rcases hback.registry with hr | ⟨hok, hr⟩
    · exact Or.inl (by rw [hr])
    · by_cases hn : f.proto.name = s.registry.entry
      · obtain ⟨r, hok⟩ := hok
        refine Or.inr ⟨hn, ⟨r, hok⟩, ?_⟩
        rw [hr]
        exact if_pos hn
      · refine Or.inl ?_
        rw [hr]
        exact if_neg hn
  · intro name e he
    obtain ⟨ds, hds⟩ := hback.signatures
    obtain ⟨e', he', hid⟩ := hback.linked.indexed.declaration?_of_signatures hds he
    refine ⟨e', he', hid, fun hknown => ?_⟩
    obtain ⟨entry, hentry⟩ := Option.ne_none_iff_exists'.mp hknown
    have hbefore := hl.declared name entry hentry
    have hafter := hback.linked.declared name entry (by rw [hback.find?, hentry])
    rw [he] at hbefore
    rw [he'] at hafter
    cases hbefore
    cases hafter
    rfl

/-- A definition of `|` as the entry function takes over from a placeholder, calls an unknown function, and fails at an
unknown variable. -/
theorem lowerFunction_noTrace_operator :
    let pos : Pos := default
    let caller : Function := ⟨⟨pos, "f", ["x"], .plain⟩, .ret pos (.call pos "binary|" [.var pos "x", .var pos "x"])⟩
    let operator : Function := ⟨⟨pos, "binary|", ["x", "y"], .binary '|' 5⟩,
      .letIn pos [⟨pos, "z", some (.call pos "h" [.var pos "x"])⟩] (.ret pos (.var pos "w"))⟩
    let s := ((Session.initial "binary|" true).compileFunction caller).2
    s.Reachable ∧ (s.compileFunction operator).2.diagnostics.map Diagnostic.cause = [.unknownVariable "w"] ∧
      ∃ d s', lowerFunction operator s = .error d s' ∧ NoTrace operator s s' := by
  intro pos caller operator s
  have hs : s.Reachable := (Session.Reachable.initial _ _).function caller
  have hcause : (s.compileFunction operator).2.diagnostics.map Diagnostic.cause = [.unknownVariable "w"] := by
    decide +kernel +zetaReduce
  have hnone : (s.compileFunction operator).1.isNone := by
    decide +kernel +zetaReduce
  refine ⟨hs, hcause, ?_⟩
  cases h : lowerFunction operator s with
  | ok body s' =>
    rw [Session.compileFunction, h] at hnone
    cases hnone
  | error d s' => exact ⟨d, s', rfl, lowerFunction_noTrace hs h⟩

end Funclet
