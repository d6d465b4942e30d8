import Funclet.Proofs.Increments
import Funclet.Proofs.Reordering

/-!
# Reading first and lowering afterwards

A reader that works ahead enters an operator as soon as its definition has been read; a session enters it while the
definition is lowered, and takes it back if that fails. Where nothing fails, the two tables are the same in front of
every function, so the same functions are read.

* `Adds.none` : where nothing is reported in the end, nothing has been on the way;
* `compileFor_staged` : the functions that are compiled on the way are those that are read ahead;
* `compileText_staged` : so a text can be read as a whole and its functions be lowered afterwards.
-/

namespace Funclet

open Grammar Lowering

/-- What is noted about an operator is no diagnostic. -/
theorem Grammar.diagnostics_after (functions : List Function) (reports : List Diagnostic) (kind : FunctionKind)
    (r : Reading) :
    (r.after functions (reports.map .report ++ (Note.ofKind kind).map .note)).diagnostics =
      reports ++ r.diagnostics := by
  have hnotes : ((Note.ofKind kind).map Event.note).filterMap Event.diagnostic? = [] := by
    cases kind <;> rfl
  have hreports : (reports.map Event.report).filterMap Event.diagnostic? = reports := by
    rw [List.filterMap_map]
    exact List.filterMap_some
  unfold Reading.diagnostics Reading.after
  rw [List.filterMap_append, List.filterMap_append, hreports, hnotes, List.append_nil]

namespace Session

variable {s t u : Session} {f : Function}

/-- Where nothing is reported in the end, nothing has been on the way. -/
theorem Adds.none {P Q : Diagnostic → Prop} (h₁ : Adds P s t) (h₂ : Adds Q t u) (h : u.diagnostics = s.diagnostics) :
    t.diagnostics = s.diagnostics ∧ u.diagnostics = t.diagnostics := by
  obtain ⟨ds, hds, -⟩ := h₁
  obtain ⟨es, hes, -⟩ := h₂
  have hnil : ds ++ es = [] := by
    rw [hes, hds, List.append_assoc] at h
    exact List.append_right_eq_self.1 h
  obtain ⟨rfl, rfl⟩ := List.append_eq_nil_iff.1 hnil
  exact ⟨hds.trans (List.append_nil _), hes.trans (List.append_nil _)⟩

/-- A function that reports nothing is lowered. -/
theorem lowerFunction_of_quiet (hs : s.Reachable) (h : (s.compileFunction f).2.diagnostics = s.diagnostics) :
    ∃ body s', lowerFunction f s = .ok body s' := by
  cases hl : lowerFunction f s with
  | ok body s' => exact ⟨body, s', rfl⟩
  | error d s' =>
    have hback := lowerFunction_reverted hs.orderly.linked hs.orderly.idle hl
    rw [compileFunction, hl] at h
    have hreport : (s'.report d).diagnostics = s'.diagnostics ++ [d] := diagnostics_reports s' [d]
    rw [hreport, hback.diagnostics] at h
    exact absurd (List.append_right_eq_self.1 h) (List.cons_ne_nil _ _)

/-- Where nothing is reported, the functions that are compiled on the way are those that are read ahead. -/
theorem compileFor_staged (n : Nat) : ∀ (r : State) (s : Session), s.Reachable → r.reports = [] →
    (compileFor n r s).2.diagnostics = s.diagnostics →
    (readFor n s.operators r).diagnostics = [] ∧
      s.compileFunctions (readFor n s.operators r).functions = compileFor n r s := by
  induction n with
  | zero => exact fun _ _ _ _ _ => ⟨rfl, rfl⟩
  | succ n ih =>
    intro r s hs hr h
    have hquiet : (r.nextFunction s.operators).2.reports = [] :=
      reports_eq_nil hs hr ⟨[], h.trans (List.append_nil _).symm, fun _ hd => absurd hd List.not_mem_nil⟩
    obtain ⟨a, r', hnext⟩ : ∃ a r', r.nextFunction s.operators = (a, r') := ⟨_, _, rfl⟩
    rw [hnext] at hquiet
    dsimp only at hquiet
    have hstate : { r' with reports := [] } = r' := by
      rw [← hquiet]
    simp only [compileFor, readFunction_quiet hnext hquiet] at h ⊢
    unfold readFor
    dsimp only
    rw [hnext]
    dsimp only
    rw [hstate, hquiet]
    cases a with
    | ended => exact ⟨rfl, rfl⟩
    | failed => exact ih r' s hs hquiet h
    | function f =>
      dsimp only at h ⊢
      have hadds : Adds (fun _ => True) s (s.compileFunction f).2 := adds_compileFunction hs fun _ _ _ => trivial
      obtain ⟨hfirst, hrest⟩ := hadds.none (adds_compileFor n r' _ (hs.function f)) h
      obtain ⟨body, s', hl⟩ := lowerFunction_of_quiet hs hfirst
      -- The operator that the reader enters by itself is the one that lowering has left in force.
      have hops : (s.compileFunction f).2.operators = (s.operators.define f.proto.kind).1 := by
        rw [compileFunction, hl]
        exact (lowerFunction_settings hl).2.1
      obtain ⟨hdiag, hcompile⟩ := ih r' _ (hs.function f) hquiet hrest
      rw [hops] at hdiag hcompile
      refine ⟨(diagnostics_after [f] [] f.proto.kind _).trans hdiag, ?_⟩
      rw [← hcompile]
      rfl

/-- If a new session has nothing to report about a text, neither has a reader of the text, and the functions that it
reads come to the same bodies and to the same program when they are compiled in another new session. -/
theorem compileText_staged {settings : Settings} {source : String} :
    let new := initial settings.entry settings.strictForwardRefs
    let reading := readSource settings.textEscapes source
    (new.compileText settings.textEscapes source).2.diagnostics = [] →
      reading.diagnostics = [] ∧ (new.compileFunctions reading.functions).2.diagnostics = [] ∧
        new.compileFunctions reading.functions = new.compileText settings.textEscapes source ∧
        (Compilation.ofFunctions settings.entry settings.strictForwardRefs reading.functions).bodies =
          (compile settings source).bodies ∧
        (Compilation.ofFunctions settings.entry settings.strictForwardRefs reading.functions).program =
          (compile settings source).program := by
  intro new reading h
  obtain ⟨hread, hcompile⟩ := compileFor_staged _ _ new (.initial _ _) rfl h
  change new.compileFunctions reading.functions = new.compileText settings.textEscapes source at hcompile
  have hwhole : Compilation.ofFunctions settings.entry settings.strictForwardRefs reading.functions =
      compile settings source := by
    unfold Compilation.ofFunctions compile
    rw [hcompile]
  exact ⟨hread, hcompile ▸ h, hcompile, congrArg _ hwhole, congrArg _ hwhole⟩

/-- Two operators, one of them defined with the other, and a call of a function that is never defined. -/
theorem compileText_staged_operators :
    let settings : Settings := { strictForwardRefs := false }
    let source := "FUNC binary | 5 (a, b) RETURN a + b FUNC unary ! (a) RETURN a | 1 FUNC main() RETURN !2 | g(3) * 4"
    let new := initial settings.entry settings.strictForwardRefs
    let functions := (readSource settings.textEscapes source).functions
    (new.compileText settings.textEscapes source).2.diagnostics = [] ∧
      functions.map (·.proto.name) = ["binary|", "unary!", "main"] ∧
      new.compileFunctions functions = new.compileText settings.textEscapes source := by
  intro settings source new functions
  have hquiet : (new.compileText settings.textEscapes source).2.diagnostics = [] := by decide +kernel +zetaReduce
  exact ⟨hquiet, by decide +kernel +zetaReduce, (compileText_staged hquiet).2.2.1⟩

end Session

end Funclet
