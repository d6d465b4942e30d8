import Funclet.Proofs.Linking
import Funclet.Proofs.Reading.Names
import Funclet.Proofs.Simulation.Functions

/-!
# Accepted source texts

* `Settled.implements` : the program of what a session has compiled has the bodies of these functions;
* `Settled.entry` : its entry function is one of them;
* `compileFor_accepted`, `compile_accepted` : if nothing is wrong with a source text, the functions that have been
  compiled are those that are read from it.
-/

namespace Funclet

open Lowering

/-- Of several bodies for one number, the last counts. -/
theorem Program.body?_eq_find? (p : Program) (id : FunctionId) :
    p.body? id = p.bodies.reverse.find? fun b => b.id = id := by
  rw [body?]
  induction p.bodies using List.reverseRecOn with
  | nil => rfl
  | append_singleton bs b ih =>
    rw [List.foldl_append, List.reverse_append, ih, List.reverse_singleton, List.singleton_append, List.find?_cons]
    by_cases hb : b.id = id
    · simp only [List.foldl_cons, List.foldl_nil, hb, if_true, decide_true]
    · simp only [List.foldl_cons, List.foldl_nil, hb, if_false, decide_false]

namespace Session

variable {s s' : Session} {f : Function} {b : Body} {done : List (Function × Body)}

/-! ## Programs of compiled functions -/

section Program
variable (h : s.Settled done)
include h

/-- A function that has been compiled is the only one with its number. -/
theorem Settled.eq_of_id {f' : Function} {b' : Body} (hm : (f, b) ∈ done) (hm' : (f', b') ∈ done)
    (hid : b.id = b'.id) : (f, b) = (f', b') := by
  have hk := h.knows hm
  rw [hid] at hk
  exact List.inj_on_of_nodup_map h.distinct hm hm' (h.orderly.linked.knows_unique hk (h.knows hm')).1

theorem Settled.body? (entry : String) (hm : (f, b) ∈ done) :
    (s.assembler.link (done.map Prod.snd) entry).body? b.id = some b := by
  rw [Program.body?_eq_find?]
  cases hfind : (s.assembler.link (done.map Prod.snd) entry).bodies.reverse.find? fun c => c.id = b.id with
  | none =>
    have hb := List.find?_eq_none.mp hfind b (List.mem_reverse.mpr (List.mem_map_of_mem hm))
    exact absurd (decide_eq_true rfl) hb
  | some c =>
    have hid : c.id = b.id := by simpa only [decide_eq_true_eq] using List.find?_some hfind
    obtain ⟨⟨f', c⟩, hm', rfl⟩ := List.mem_map.mp (List.mem_reverse.mp (List.mem_of_find?_eq_some hfind))
    cases h.eq_of_id hm' hm hid
    rfl

/-- The program has the bodies of the functions that have been compiled, and no others. -/
theorem Settled.implements (entry : String) :
    Implements (s.assembler.link (done.map Prod.snd) entry) s.registry.Knows (done.map Prod.fst) where
  defined := by
    intro name n g f hk hfind
    have hname : f.proto.name = name := by simpa only [decide_eq_true_eq] using List.find?_some hfind
    obtain ⟨⟨f, b⟩, hm, rfl⟩ := List.mem_map.mp (List.mem_of_find?_eq_some hfind)
    have hknows := h.knows hm
    rw [hname] at hknows
    obtain ⟨rfl, rfl⟩ := hknows.unique hk
    exact ⟨rfl, b, h.body? entry hm, h.code f b hm _ fun _ _ _ hk => hk⟩
  undefined := by
    intro name n g hk hfind
    refine ⟨?_, h.nameOf _ _ hk⟩
    rw [Program.body?_eq_find?, List.find?_eq_none]
    intro b hb hid
    obtain ⟨⟨f, b⟩, hm, rfl⟩ := List.mem_map.mp (List.mem_reverse.mp hb)
    have hknows := h.knows hm
    rw [of_decide_eq_true hid] at hknows
    have hname := (h.orderly.linked.knows_unique hknows hk).1
    exact List.find?_eq_none.mp hfind f (List.mem_map_of_mem hm) (decide_eq_true hname)

/-- The entry function of the program has a body and is known under the entry name. -/
theorem Settled.entry {entry : String} {id : FunctionId}
    (hentry : (s.assembler.link (done.map Prod.snd) entry).entry = some id) :
    ∃ b, (s.assembler.link (done.map Prod.snd) entry).body? id = some b ∧ s.registry.Knows entry b.params id := by
  obtain ⟨b, hfind, rfl⟩ := Option.map_eq_some_iff.mp hentry
  have hname : b.name = entry := by simpa only [decide_eq_true_eq] using List.find?_some hfind
  obtain ⟨⟨f, b⟩, hm, rfl⟩ := List.mem_map.mp (List.mem_of_find?_eq_some hfind)
  refine ⟨b, h.body? entry hm, ?_⟩
  rw [(h.header f b hm).2, ← hname, (h.header f b hm).1]
  exact h.knows hm

/-- If the session waits for nothing, no call is one of a function without a body. -/
theorem Settled.not_missing (hpending : ∀ name, s.registry.pending.get? name = none) (name : String) :
    ¬ Missing s.registry.Knows (done.map Prod.fst) name := by
  rintro ⟨⟨n, g, hk⟩, hfind⟩
  have hnone : ∀ f b, (f, b) ∈ done → f.proto.name ≠ name := fun f b hm hname =>
    List.find?_eq_none.mp hfind f (List.mem_map_of_mem hm) (decide_eq_true hname)
  obtain ⟨e, he⟩ := h.pending_of_knows hk hnone
  rw [hpending name] at he
  cases he

end Program

/-! ## Texts -/

theorem diagnostics_record_ne_nil (h : s.diagnostics ≠ []) (events : List Event) :
    (s.record events).diagnostics ≠ [] := by
  rw [diagnostics_record]
  exact List.append_ne_nil_of_left_ne_nil h _

theorem diagnostics_report_ne_nil (s : Session) (d : Diagnostic) : (s.report d).diagnostics ≠ [] := by
  unfold report
  rw [diagnostics_record]
  exact List.append_ne_nil_of_right_ne_nil _ (List.cons_ne_nil _ _)

/-- What has gone wrong is not forgotten. -/
theorem compileFunction_diagnostics_ne_nil (h : s.diagnostics ≠ []) (f : Function) :
    (s.compileFunction f).2.diagnostics ≠ [] := by
  unfold Session.compileFunction
  cases hl : lowerFunction f s with
  | ok body s' =>
    obtain ⟨-, -, -, hdiag⟩ := lowerFunction_settings hl
    rwa [← hdiag] at h
  | error d s' => exact diagnostics_report_ne_nil s' d

theorem compileFor_diagnostics_ne_nil {escapes : Bool} {source : String} {r : Grammar.State}
    (hr : Grammar.Reached escapes source r) (n : Nat) (h : s.diagnostics ≠ []) :
    (compileFor n r s).2.diagnostics ≠ [] := by
  refine compileFor_induction (I := fun s _ => s.diagnostics ≠ []) ?_ ?_ n r s [] hr h
  · exact fun s _ events hs => diagnostics_record_ne_nil hs events
  · exact fun s _ f _ hs => compileFunction_diagnostics_ne_nil hs f

/-- If nothing goes wrong, the functions that are compiled are those that are read. -/
theorem compileFor_accepted {escapes : Bool} {source : String} (n : Nat) :
    ∀ r s done, Grammar.Reached escapes source r → s.Settled done → (compileFor n r s).2.diagnostics = [] →
      ∃ more, (compileFor n r s).2.Settled (done ++ more) ∧ more.map Prod.snd = (compileFor n r s).1 ∧
        more.map Prod.fst = (Grammar.readFor n s.operators r).functions ∧
        (compileFor n r s).2.strict = s.strict ∧ (compileFor n r s).2.registry.entry = s.registry.entry := by
  induction n with
  | zero =>
    intro r s done _ hs _
    refine ⟨[], ?_, rfl, rfl, rfl, rfl⟩
    rwa [List.append_nil]
  | succ n ih =>
    intro r s done hr hs hdiag
    have hnext : Grammar.Reached escapes source { (r.nextFunction s.operators).2 with reports := [] } :=
      (hr.next s.operators).handOver
    have hrecord := hs.record ((r.nextFunction s.operators).2.reports.map .report)
    simp only [compileFor, readFunction, Grammar.readFor, Grammar.Reading.after] at hdiag ⊢
    cases ha : (r.nextFunction s.operators).1 with
    | ended =>
      refine ⟨[], ?_, rfl, rfl, rfl, rfl⟩
      rwa [List.append_nil]
    | failed =>
      simp only [ha] at hdiag
      exact ih _ _ done hnext hrecord hdiag
    | function f =>
      simp only [ha, compileFunction] at hdiag ⊢
      have hf : Grammar.Produced f := ⟨escapes, source, r, s.operators, hr, ha⟩
      cases hl : lowerFunction f (s.record ((r.nextFunction s.operators).2.reports.map .report)) with
      | ok body s' =>
        rw [hl] at hdiag
        obtain ⟨hstrict, hops, hentry, -⟩ := lowerFunction_settings hl
        obtain ⟨more, hmore, hsnd, hfst, hstrict', hentry'⟩ := ih _ _ _ hnext (hrecord.lowered hf.spelled hl) hdiag
        refine ⟨(f, body) :: more, ?_, ?_, ?_, hstrict'.trans hstrict, hentry'.trans hentry⟩
        · rwa [List.append_assoc] at hmore
        · exact congrArg _ hsnd
        · rw [hops] at hfst
          exact congrArg _ hfst
      | error d s' =>
        rw [hl] at hdiag
        exact absurd hdiag (compileFor_diagnostics_ne_nil hnext n (diagnostics_report_ne_nil s' d))

theorem compileText_accepted {escapes : Bool} {source : String} (h : s.Settled done)
    (hdiag : (s.compileText escapes source).2.diagnostics = []) :
    ∃ more, (s.compileText escapes source).2.Settled (done ++ more) ∧
      more.map Prod.snd = (s.compileText escapes source).1 ∧
      more.map Prod.fst = (Grammar.readFor ((Grammar.State.ofScan (scan escapes source)).ahead.length + 1) s.operators
        (.ofScan (scan escapes source))).functions ∧
      (s.compileText escapes source).2.strict = s.strict ∧
      (s.compileText escapes source).2.registry.entry = s.registry.entry :=
  compileFor_accepted _ _ s done .start h hdiag

theorem diagnostics_of_conclude (h : s.conclude.diagnostics = []) : s.diagnostics = [] := by
  by_contra hne
  refine absurd h ?_
  unfold conclude
  dsimp only
  split
  · exact diagnostics_record_ne_nil hne _
  · exact diagnostics_record_ne_nil (diagnostics_record_ne_nil hne _) _

/-- A strict session with nothing to report waits for nothing. -/
theorem Settled.pending_none (h : s.Settled done) (hstrict : s.strict = true) (hdiag : s.conclude.diagnostics = [])
    (name : String) : s.registry.pending.get? name = none := by
  rw [diagnostics_conclude hstrict, List.append_eq_nil_iff, List.map_eq_nil_iff] at hdiag
  have hmem := (h.unresolved.2 name).not
  rw [hdiag.2, not_exists] at hmem
  exact Option.eq_none_iff_forall_ne_some.mpr (hmem.mp List.not_mem_nil)

end Session

/-- If nothing is wrong with a source text, its functions are those of the program, and in a strict session none of them
calls one that is not there. -/
theorem compile_accepted {settings : Settings} {source : String} (h : (compile settings source).diagnostics = []) :
    ∃ s done, Session.Settled s done ∧ done.map Prod.fst = (Grammar.readSource settings.textEscapes source).functions ∧
      (compile settings source).program = s.assembler.link (done.map Prod.snd) settings.entry ∧
      (settings.strictForwardRefs = true → ∀ name, s.registry.pending.get? name = none) := by
  obtain ⟨c, hc⟩ : ∃ c, (Session.initial settings.entry settings.strictForwardRefs).compileText
    settings.textEscapes source = c := ⟨_, rfl⟩
  have hcompile : compile settings source = ⟨c.1, c.2.conclude⟩ := by
    rw [← hc]
    rfl
  rw [hcompile] at h ⊢
  have hdiag : c.2.diagnostics = [] := Session.diagnostics_of_conclude h
  obtain ⟨done, hs, hsnd, hfst, hstrict, hentry⟩ :=
    Session.compileText_accepted (Session.settled_initial settings.entry settings.strictForwardRefs) (hc ▸ hdiag)
  rw [hc] at hs hsnd hstrict hentry
  refine ⟨c.2, done, hs, hfst, ?_, ?_⟩
  · rw [hsnd]
    exact (Session.program_conclude c.2 c.1).trans (congrArg _ hentry)
  · exact fun htrue => hs.pending_none (hstrict.trans htrue) h

end Funclet
