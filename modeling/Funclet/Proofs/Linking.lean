import Funclet.Proofs.Lowering.FunctionCode
import Funclet.Proofs.Reading.Attempts
import Funclet.Proofs.Rollback

/-!
# Linking

* `Session.Settled s done` : the functions `done` are those that the session `s` has compiled, what it takes for defined
  is what they define, and what it waits for is what they call;
* `Settled.lowered`, `Settled.reverted` : kept by a function, whether it is compiled or fails;
* `Compilation.ofJobs` : the outcome of a session over any texts and functions;
* `ofJobs_linked` : in the program every call agrees with what is declared, and in a strict session exactly the
  functions that are called and have no body are reported, each of them once.
-/

namespace Funclet

open Lowering

namespace Session

/-- The functions `done`, with their bodies, are those that the session has compiled. -/
structure Settled (s : Session) (done : List (Function × Body)) : Prop where
  orderly : s.Orderly
  fitting : s.registry.Fitting
  defined : ∀ name e, s.registry.confirmed.get? name = some e ↔
    ∃ f b, (f, b) ∈ done ∧ f.proto.name = name ∧ e = ⟨f.proto, b.id⟩
  header : ∀ f b, (f, b) ∈ done → b.name = f.proto.name ∧ b.params = f.proto.arity
  distinct : (done.map fun c => c.1.proto.name).Nodup
  calls : ∀ f b g n, (f, b) ∈ done → b.Calls g n → ∃ name, s.registry.Knows name n g
  /-- Only bodies that are left can make a session wait for a function. -/
  awaited : ∀ name e, s.registry.pending.get? name = some e →
    ∃ f b g n, (f, b) ∈ done ∧ b.Calls g n ∧ s.registry.Knows name n g
  code : ∀ f b, (f, b) ∈ done → ∀ link, Covers link s.registry → BodyCode link f b

theorem settled_initial (entry : String) (strict : Bool) : (initial entry strict).Settled [] where
  orderly := (Reachable.initial entry strict).orderly
  fitting := fun _ _ h => by cases h
  defined := fun _ _ => ⟨nofun, fun ⟨_, _, h, _⟩ => nomatch h⟩
  header := fun _ _ h => by cases h
  distinct := List.nodup_nil
  calls := fun _ _ _ _ h => by cases h
  awaited := fun _ _ h => by cases h
  code := fun _ _ h => by cases h

variable {s s' : Session} {f : Function} {done : List (Function × Body)}

/-- The journal does not matter. -/
theorem Settled.record (h : s.Settled done) (events : List Event) : (s.record events).Settled done :=
  ⟨⟨h.orderly.linked, h.orderly.idle⟩, h.fitting, h.defined, h.header, h.distinct, h.calls, h.awaited, h.code⟩

/-- What has been compiled is known under its name. -/
theorem Settled.knows (h : s.Settled done) {b : Body} (hm : (f, b) ∈ done) :
    s.registry.Knows f.proto.name f.proto.arity b.id :=
  ⟨⟨f.proto, b.id⟩, Registry.find?_of_confirmed ((h.defined _ _).mpr ⟨f, b, hm, rfl, rfl⟩), rfl, rfl⟩

/-- A function that fails is as if it had not been there. -/
theorem Settled.reverted (h : s.Settled done) (hr : Reverted f s s') : s'.Settled done where
  orderly := ⟨hr.linked, hr.idle⟩
  fitting := h.fitting.congr hr.confirmed
  defined := fun name e => by
    rw [hr.confirmed]
    exact h.defined name e
  header := h.header
  distinct := h.distinct
  calls := fun f b g n hm hc => by
    obtain ⟨name, hk⟩ := h.calls f b g n hm hc
    exact ⟨name, (hr.knows name n g).mpr hk⟩
  awaited := fun name e he => by
    rw [hr.pending] at he
    obtain ⟨f, b, g, n, hm, hc, hk⟩ := h.awaited name e he
    exact ⟨f, b, g, n, hm, hc, (hr.knows name n g).mpr hk⟩
  code := fun f b hm link hlink => h.code f b hm link fun name n g hk => hlink name n g ((hr.knows name n g).mpr hk)

/-- A function that is compiled joins those that have been. -/
theorem Settled.lowered (h : s.Settled done) (hf : f.Spelled) {body : Body} (hl : lowerFunction f s = .ok body s') :
    s'.Settled (done ++ [(f, body)]) := by
  have hc := lowerFunction_compiled h.orderly.linked h.orderly.idle h.fitting hf hl
  have hmem : ∀ g b, (g, b) ∈ done ++ [(f, body)] ↔ (g, b) ∈ done ∨ g = f ∧ b = body := by
    intro g b
    rw [List.mem_append, List.mem_singleton, Prod.mk.injEq]
  have hfresh : ∀ g b, (g, b) ∈ done → f.proto.name ≠ g.proto.name := by
    intro g b hm heq
    have hg := (h.defined _ _).mpr ⟨g, b, hm, rfl, rfl⟩
    rw [← heq, hc.fresh] at hg
    cases hg
  refine ⟨⟨lowerFunction_linked h.orderly.linked hl, lowerFunction_idle h.orderly.idle hl⟩, hc.fitting, ?_, ?_, ?_, ?_,
    ?_, ?_⟩
  · intro name e
    rw [hc.confirmed, OrderedMap.get?_insert]
    split
    · rename_i hn
      constructor
      · rintro ⟨⟩
        exact ⟨f, body, (hmem _ _).mpr (Or.inr ⟨rfl, rfl⟩), hn, rfl⟩
      · rintro ⟨g, b, hm, rfl, rfl⟩
        rcases (hmem g b).mp hm with hm | ⟨rfl, rfl⟩
        · exact absurd hn (hfresh g b hm)
        · rfl
    · rename_i hn
      rw [h.defined]
      constructor
      · rintro ⟨g, b, hm, hg⟩
        exact ⟨g, b, (hmem g b).mpr (Or.inl hm), hg⟩
      · rintro ⟨g, b, hm, rfl, rfl⟩
        rcases (hmem g b).mp hm with hm | ⟨rfl, rfl⟩
        · exact ⟨g, b, hm, rfl, rfl⟩
        · exact absurd rfl hn
  · intro g b hm
    rcases (hmem g b).mp hm with hm | ⟨rfl, rfl⟩
    · exact h.header g b hm
    · exact ⟨hc.name, hc.params⟩
  · rw [List.map_append, List.nodup_append]
    refine ⟨h.distinct, List.nodup_singleton _, ?_⟩
    intro name hname other hother
    obtain ⟨⟨g, b⟩, hm, rfl⟩ := List.mem_map.mp hname
    obtain rfl := List.mem_singleton.mp hother
    exact (hfresh g b hm).symm
  · intro g b k n hm hcall
    rcases (hmem g b).mp hm with hm | ⟨rfl, rfl⟩
    · obtain ⟨name, hk⟩ := h.calls g b k n hm hcall
      exact ⟨name, hc.known name n k hk⟩
    · exact hc.calls k n hcall
  · intro name e he
    rcases hc.met name e he with ⟨he, -⟩ | ⟨k, n, hcall, hk⟩
    · obtain ⟨g, b, k, n, hm, hcall, hk⟩ := h.awaited name e he
      exact ⟨g, b, k, n, (hmem g b).mpr (Or.inl hm), hcall, hc.known name n k hk⟩
    · exact ⟨f, body, k, n, (hmem _ _).mpr (Or.inr ⟨rfl, rfl⟩), hcall, hk⟩
  · intro g b hm link hlink
    rcases (hmem g b).mp hm with hm | ⟨rfl, rfl⟩
    · exact h.code g b hm link fun name n k hk => hlink name n k (hc.known name n k hk)
    · exact hc.code link hlink

/-- Of a function that has been read, the body that there may be is all that is left. -/
theorem Settled.compileFunction (h : s.Settled done) (hf : f.Spelled) :
    ∃ more, (s.compileFunction f).2.Settled (done ++ more) ∧ more.map Prod.snd = (s.compileFunction f).1.toList ∧
      (s.compileFunction f).2.strict = s.strict ∧ (s.compileFunction f).2.registry.entry = s.registry.entry := by
  unfold Session.compileFunction
  cases hl : lowerFunction f s with
  | ok body s' =>
    obtain ⟨hstrict, -, hentry, -⟩ := lowerFunction_settings hl
    exact ⟨[(f, body)], h.lowered hf hl, rfl, hstrict, hentry⟩
  | error d s' =>
    have hr := lowerFunction_reverted h.orderly.linked h.orderly.idle hl
    refine ⟨[], ?_, rfl, hr.strict, hr.entry⟩
    rw [List.append_nil]
    exact (h.reverted hr).record _

/-- After any jobs, the bodies that came of them are those of the functions that have been compiled. -/
theorem performAll_settled (entry : String) (strict : Bool) (jobs : List Job) :
    ∃ done, ((initial entry strict).performAll jobs).2.Settled done ∧
      done.map Prod.snd = ((initial entry strict).performAll jobs).1 ∧
      ((initial entry strict).performAll jobs).2.strict = strict ∧
      ((initial entry strict).performAll jobs).2.registry.entry = entry := by
  refine performAll_induction
    (I := fun s bodies => ∃ done, s.Settled done ∧ done.map Prod.snd = bodies ∧ s.strict = strict ∧
      s.registry.entry = entry) ?_ ?_
    jobs (initial entry strict) [] ⟨[], settled_initial entry strict, rfl, rfl, rfl⟩
  · rintro s bodies events ⟨done, hs, hb, hstrict, hentry⟩
    exact ⟨done, hs.record events, hb, hstrict, hentry⟩
  · rintro s bodies f hf ⟨done, hs, rfl, hstrict, hentry⟩
    obtain ⟨more, hs', hmore, hstrict', hentry'⟩ := hs.compileFunction hf.spelled
    exact ⟨done ++ more, hs', by rw [List.map_append, hmore], hstrict'.trans hstrict, hentry'.trans hentry⟩

/-! ## Programs and reports -/

section Program
variable (h : s.Settled done) (bodies : List Body) (entry : String)
include h

/-- What is known is declared in the program. -/
theorem Settled.declaration? {name : String} {n : Nat} {g : FunctionId} (hk : s.registry.Knows name n g) :
    (s.assembler.link bodies entry).declaration? g = some ⟨g, name, n⟩ :=
  h.orderly.linked.indexed.find?_id (h.orderly.linked.declared_of_knows hk)

theorem Settled.nameOf {name : String} {n : Nat} {g : FunctionId} (hk : s.registry.Knows name n g) :
    (s.assembler.link bodies entry).nameOf g = name := by
  rw [Program.nameOf, h.declaration? bodies entry hk]

end Program

/-- The names that a session waits for, each of them once. -/
theorem Settled.unresolved (h : s.Settled done) :
    (s.registry.unresolved.map Prototype.name).Nodup ∧
      ∀ name, name ∈ s.registry.unresolved.map Prototype.name ↔ ∃ e, s.registry.pending.get? name = some e := by
  have hl := h.orderly.linked
  have hnames : s.registry.unresolved.map Prototype.name = s.registry.pending.keys := by
    rw [Registry.unresolved, OrderedMap.values, OrderedMap.keys, List.map_map, List.map_map]
    refine List.map_congr_left fun c hc => ?_
    have hget := (OrderedMap.get?_eq_some_iff hl.pending c.1 c.2).mpr hc
    exact hl.named _ _ (hl.find?_of_pending hget)
  rw [hnames]
  refine ⟨hl.pending, fun name => ?_⟩
  rw [← Option.isSome_iff_exists, Option.isSome_iff_ne_none, ne_eq, OrderedMap.get?_eq_none_iff, not_not]

/-- A name that is known and is not that of a compiled function is one that the session waits for. -/
theorem Settled.pending_of_knows (h : s.Settled done) {name : String} {n : Nat} {g : FunctionId}
    (hk : s.registry.Knows name n g) (hnone : ∀ f b, (f, b) ∈ done → f.proto.name ≠ name) :
    ∃ e, s.registry.pending.get? name = some e := by
  obtain ⟨e, he, -, -⟩ := hk
  cases hconf : s.registry.confirmed.get? name with
  | none =>
    refine ⟨e, ?_⟩
    rwa [Registry.find?, hconf, Option.none_or] at he
  | some e' =>
    obtain ⟨f, b, hm, hname, -⟩ := (h.defined _ _).mp hconf
    exact absurd hname (hnone f b hm)

/-- The names that a session waits for are those that are called in a body and are not the name of one. -/
theorem Settled.pending_iff (h : s.Settled done) (entry name : String) :
    (∃ e, s.registry.pending.get? name = some e) ↔
      (∃ b ∈ done.map Prod.snd, ∃ g n, b.Calls g n ∧
        (s.assembler.link (done.map Prod.snd) entry).nameOf g = name) ∧
      ∀ b ∈ done.map Prod.snd, b.name ≠ name := by
  constructor
  · rintro ⟨e, he⟩
    obtain ⟨f, b, g, n, hm, hc, hk⟩ := h.awaited name e he
    refine ⟨⟨b, List.mem_map_of_mem hm, g, n, hc, h.nameOf _ _ hk⟩, ?_⟩
    rintro c hc rfl
    obtain ⟨⟨f', c⟩, hm', rfl⟩ := List.mem_map.mp hc
    have hconf := (h.defined _ _).mpr ⟨f', c, hm', rfl, rfl⟩
    rw [(h.header f' c hm').1, h.orderly.linked.apart _ _ hconf] at he
    cases he
  · rintro ⟨⟨b, hb, g, n, hc, hname⟩, hnone⟩
    obtain ⟨⟨f, b⟩, hm, rfl⟩ := List.mem_map.mp hb
    obtain ⟨other, hk⟩ := h.calls f b g n hm hc
    obtain rfl : other = name := (h.nameOf _ _ hk).symm.trans hname
    refine h.pending_of_knows hk fun f' c hm' hname' => ?_
    exact hnone c (List.mem_map_of_mem hm') ((h.header f' c hm').1.trans hname')

/-- A strict session reports what it waits for. -/
theorem diagnostics_conclude (hs : s.strict = true) :
    s.conclude.diagnostics =
      s.diagnostics ++ s.registry.unresolved.map fun p => ⟨.undefinedFunction p.name, p.pos⟩ := by
  have hmissing : ∀ ps : List Prototype, (ps.map s.missing).filterMap Event.diagnostic? =
      ps.map fun p => ⟨.undefinedFunction p.name, p.pos⟩ := by
    intro ps
    induction ps with
    | nil => rfl
    | cons p ps ih =>
      rw [List.map_cons, missing, if_pos hs]
      exact congrArg _ ih
  unfold conclude
  dsimp only
  split
  · rw [diagnostics_record, hmissing]
  · rw [diagnostics_note, diagnostics_record, hmissing]

end Session

def Compilation.ofJobs (entry : String) (strict : Bool) (jobs : List Job) : Compilation :=
  let (bodies, s) := (Session.initial entry strict).performAll jobs
  ⟨bodies, s.conclude⟩

def Compilation.Calls (c : Compilation) (name : String) : Prop :=
  ∃ b ∈ c.bodies, ∃ g n, b.Calls g n ∧ c.program.nameOf g = name

theorem Session.program_conclude (s : Session) (bodies : List Body) :
    (⟨bodies, s.conclude⟩ : Compilation).program = s.assembler.link bodies s.registry.entry := by
  unfold Compilation.program Session.conclude
  dsimp only
  split <;> rfl

theorem ofJobs_linked (entry : String) (strict : Bool) (jobs : List Job) :
    let c := Compilation.ofJobs entry strict jobs
    (∀ b ∈ c.bodies, ∀ g n, b.Calls g n →
      (∃ d, c.program.declaration? g = some d ∧ d.params = n) ∧
        ∀ callee ∈ c.bodies, callee.id = g → callee.params = n) ∧
    (strict = true → ∃ (names : List String) (reports : List Diagnostic),
      c.diagnostics = ((Session.initial entry strict).performAll jobs).2.diagnostics ++ reports ∧
      reports.map Diagnostic.cause = names.map Cause.undefinedFunction ∧ names.Nodup ∧
      ∀ name, name ∈ names ↔ c.Calls name ∧ ∀ b ∈ c.bodies, b.name ≠ name) := by
  intro c
  obtain ⟨done, hs, hbodies, hstrict, -⟩ := Session.performAll_settled entry strict jobs
  have hprogram := Session.program_conclude ((Session.initial entry strict).performAll jobs).2
    ((Session.initial entry strict).performAll jobs).1
  change c.program = _ at hprogram
  change done.map Prod.snd = c.bodies at hbodies
  constructor
  · intro b hb g n hc
    rw [← hbodies] at hb
    obtain ⟨⟨f, b⟩, hm, rfl⟩ := List.mem_map.mp hb
    obtain ⟨name, hk⟩ := hs.calls f b g n hm hc
    refine ⟨⟨⟨g, name, n⟩, ?_, rfl⟩, ?_⟩
    · rw [hprogram]
      exact hs.declaration? _ _ hk
    · rintro callee hcallee rfl
      rw [← hbodies] at hcallee
      obtain ⟨⟨f', callee⟩, hm', rfl⟩ := List.mem_map.mp hcallee
      rw [(hs.header f' callee hm').2]
      exact (hs.orderly.linked.knows_unique (hs.knows hm') hk).2
  · intro htrue
    obtain ⟨hnodup, hnames⟩ := hs.unresolved
    refine ⟨_, _, Session.diagnostics_conclude (hstrict.trans htrue), ?_, hnodup, ?_⟩
    · rw [List.map_map, List.map_map]
      rfl
    · intro name
      rw [hnames, hs.pending_iff ((Session.initial entry strict).performAll jobs).2.registry.entry, hbodies,
        Compilation.Calls, hprogram]
      exact Iff.rfl

/-- The function `f` fails after its calls of `g` and `h`; of these only the one that `main` calls is reported. -/
theorem ofJobs_linked_failed :
    let jobs := [Job.text true "FUNC f(x) RETURN g(x) + h(x) + y", Job.text true "FUNC main(x) RETURN g(x)"]
    let c := Compilation.ofJobs "main" true jobs
    c.diagnostics.map Diagnostic.cause = [.unknownVariable "y", .undefinedFunction "g"] ∧
      ¬ (c.Calls "h" ∧ ∀ b ∈ c.bodies, b.name ≠ "h") ∧
      ∃ b ∈ c.bodies, ∃ g n, b.Calls g n ∧ c.program.nameOf g = "g" ∧
        ∃ d, c.program.declaration? g = some d ∧ d.params = n := by
  intro jobs c
  have hcauses : c.diagnostics.map Diagnostic.cause = [.unknownVariable "y", .undefinedFunction "g"] := by
    decide +kernel +zetaReduce
  have hbefore : ((Session.initial "main" true).performAll jobs).2.diagnostics.map Diagnostic.cause =
      [.unknownVariable "y"] := by
    decide +kernel +zetaReduce
  obtain ⟨hcalls, hreports⟩ := ofJobs_linked "main" true jobs
  obtain ⟨names, reports, hsplit, hnames, -, hmem⟩ := hreports rfl
  have hg : names = ["g"] := by
    have hmap := congrArg (List.map Diagnostic.cause) hsplit
    rw [hcauses, List.map_append, hbefore, hnames] at hmap
    have hone : ["g"].map Cause.undefinedFunction = names.map Cause.undefinedFunction := (List.cons.inj hmap).2
    exact (List.map_injective_iff.mpr (fun _ _ h => Cause.undefinedFunction.inj h) hone).symm
  subst hg
  obtain ⟨⟨b, hb, g, n, hc, hname⟩, -⟩ := (hmem "g").mp (List.mem_singleton_self _)
  refine ⟨hcauses, fun hh => ?_, b, hb, g, n, hc, hname, (hcalls b hb g n hc).1⟩
  exact absurd ((hmem "h").mpr hh) (by decide)

end Funclet
