import Funclet.Proofs.Lowering.Positions
import Funclet.Proofs.OperatorTable
import Funclet.Proofs.Reading.Constituents
import Funclet.Proofs.Reading.Silence

/-!
# Reports come in the order of the text

* `readFor_inOrder` : what is wrong with the form of a text is reported in its order;
* `lowerFunction_between` : an error in what a function means stands in the function;
* `Reached.function_between` : and the function stands between its `FUNC` and the token behind it, which the reader
  has not passed yet;
* `compileText_inOrder` : so all errors of a text come in its order, whatever the session knows before.
-/

namespace Funclet

open Grammar Lowering

variable {escapes : Bool} {source : String} {ops : Operators} {f : Function} {d : Diagnostic} {lo hi : Pos}

namespace Grammar

variable {r r' : State}

theorem nextFunction_inOrder (hr : r.Placed) (hquiet : r.reports = []) (ops : Operators) :
    InOrder r.pos (r.nextFunction ops).2.reports (r.nextFunction ops).2.pos := by
  obtain ⟨⟨ds, hds, hbefore⟩, -, es, hes, hbehind, -⟩ := nextFunction_heard hr ops
  rw [hes, hds, hquiet, List.nil_append]
  exact hbefore.trans hbehind

/-- What is wrong with the form of a text is reported in its order. -/
theorem readFor_inOrder (n : Nat) (ops : Operators) (hr : Reached escapes source r) (hquiet : r.reports = []) :
    ∃ q, InOrder r.pos (readFor n ops r).diagnostics q := by
  induction n generalizing ops r with
  | zero => exact ⟨r.pos, .refl _⟩
  | succ n ih =>
    have horder := nextFunction_inOrder hr.placed hquiet ops
    have hnext := (hr.next ops).handOver
    rcases h : r.nextFunction ops with ⟨f | _ | _, r'⟩
    all_goals rw [h] at horder hnext
    · obtain ⟨q, hq⟩ := ih (ops.define f.proto.kind).1 hnext rfl
      rw [(readFor_function n h).2.1]
      exact ⟨q, horder.trans hq⟩
    · obtain ⟨q, hq⟩ := ih ops hnext rfl
      rw [(readFor_failed n h).2.1]
      exact ⟨q, horder.trans hq⟩
    · rw [(readFor_ended n h).2.1]
      exact ⟨_, horder⟩

theorem State.facing_pos_mem (q : State) (items : List Item) :
    (q.facing items).pos ∈ items.map Item.pos ++ [q.ending] := by
  rcases items with _ | ⟨⟨p, _ | t⟩, items⟩ <;> exact List.mem_cons_self

/-- A function stands between its `FUNC` and the token behind it. -/
theorem Reached.function_between (hr : Reached escapes source r) (h : r.nextFunction ops = (.function f, r')) :
    f.All (fun p => r.toFunction.pos ≤ p ∧ p ≤ r'.pos) (fun _ => True) := by
  obtain ⟨hf, hr'⟩ := hr.derives h
  obtain ⟨htoken, -, -⟩ := State.nextFunction_eq_function h
  obtain ⟨ds, hto⟩ := (Changes.toFunction r).heard (.refl hr.placed)
  have hplaced : ((r.toFunction.stream.map Item.pos) ++ [r.toFunction.ending]).Pairwise (· ≤ ·) := by
    rw [State.stream, if_neg (by simp [htoken])]
    exact hto.placed
  have hstart : ∀ item ∈ r.toFunction.stream, r.toFunction.pos ≤ item.pos := by
    rw [State.stream, if_neg (by simp [htoken])] at hplaced ⊢
    intro item hitem
    rcases List.mem_cons.1 hitem with rfl | hitem
    · exact le_rfl
    · exact (List.pairwise_cons.1 hplaced).1 _ (List.mem_append_left _ (List.mem_map_of_mem hitem))
  obtain ⟨front, hfront, hall⟩ := hf.constituents (N := fun p => r.toFunction.pos ≤ p ∧ p ≤ r'.pos) (P := fun _ => True)
  refine hall fun item hitem => ⟨⟨hstart item (hfront ▸ List.mem_append_left _ hitem), ?_⟩, fun _ _ => trivial⟩
  rw [hfront, List.map_append, List.append_assoc] at hplaced
  have hpos := State.facing_pos_mem { r.toFunction with failed := false } r'.stream
  rw [← hr'] at hpos
  exact (List.pairwise_append.1 hplaced).2.2 _ (List.mem_map_of_mem hitem) _ hpos

end Grammar

/-- An error in what a function means stands in the function. -/
theorem Lowering.lowerFunction_between {P : String → Prop} {s t : Session} (hs : s.Reachable) (hle : lo ≤ hi)
    (hf : f.All (fun p => lo ≤ p ∧ p ≤ hi) P) (h : lowerFunction f s = .error d t) : lo ≤ d.pos ∧ d.pos ≤ hi := by
  -- to move everything from outside to the nearer end of the function changes nothing
  have hfixed : f.mapPos (fun p => max lo (min p hi)) = f :=
    hf.mapPos_eq fun p hp => by rw [min_eq_left hp.2, max_eq_right hp.1]
  have hsame := (lowerFunction_uniform (m := fun p => max lo (min p hi)) (.refl s) hs.orderly.linked hs.orderly.idle
    f).1
  rw [hfixed, Session.movedSince_self, h] at hsame
  have hpos : d.pos = max lo (min d.pos hi) := by
    injection hsame with hd
    exact congrArg Diagnostic.pos hd
  rw [hpos]
  exact ⟨le_max_left _ _, max_le hle (min_le_right _ _)⟩

namespace Session

/-- From the one session to the other, errors have been reported that stand in order from `p` to `q`. -/
def Reports (p : Pos) (s : Session) (q : Pos) (t : Session) : Prop :=
  ∃ ds, t.diagnostics = s.diagnostics ++ ds ∧ InOrder p ds q

theorem Reports.trans {p q r : Pos} {s t u : Session} (h : Reports p s q t) (h' : Reports q t r u) :
    Reports p s r u := by
  obtain ⟨ds, hds, horder⟩ := h
  obtain ⟨es, hes, horder'⟩ := h'
  exact ⟨ds ++ es, by rw [hes, hds, List.append_assoc], horder.trans horder'⟩

/-- A function that has been read adds at most an error between its `FUNC` and the current token. -/
theorem reports_compileFunction {s : Session} {r r' : State} (hs : s.Reachable) (hr : Reached escapes source r)
    (h : r.nextFunction ops = (.function f, r')) : Reports r.toFunction.pos s r'.pos (s.compileFunction f).2 := by
  have hbetween := hr.function_between h
  have hle : r.toFunction.pos ≤ r'.pos := hbetween.pos.1.trans hbetween.pos.2
  rcases diagnostics_compileFunction hs f with hdiag | ⟨d, t, hl, hdiag⟩
  · exact ⟨[], by rw [hdiag, List.append_nil], hle⟩
  · obtain ⟨hlo, hhi⟩ := lowerFunction_between hs hle hbetween hl
    exact ⟨[d], hdiag, .single hlo hhi⟩

/-- A text is compiled function by function, and the reader never goes back. -/
theorem reports_compileFor (n : Nat) {r : State} {s : Session} (hr : Reached escapes source r) (hquiet : r.reports = [])
    (hs : s.Reachable) : ∃ q, Reports r.pos s q (compileFor n r s).2 := by
  induction n generalizing r s with
  | zero => exact ⟨r.pos, [], (List.append_nil _).symm, .refl _⟩
  | succ n ih =>
    have hnext := (hr.next s.operators).handOver
    have hread := diagnostics_reports s (r.nextFunction s.operators).2.reports
    have hreachable := hs.record ((r.nextFunction s.operators).2.reports.map .report)
    have horder := nextFunction_inOrder hr.placed hquiet s.operators
    simp only [compileFor, readFunction]
    rcases h : r.nextFunction s.operators with ⟨f | _ | _, r'⟩
    all_goals
      rw [h] at hnext hread hreachable horder
      dsimp only
    · obtain ⟨⟨ds, hds, hbefore⟩, -⟩ := nextFunction_heard hr.placed s.operators
      rw [hquiet, List.nil_append] at hds
      have hsilent : r'.reports = ds := by rw [(hr.derives h).2, State.facing_reports, ← hds]
      rw [hsilent] at hread hreachable ⊢
      obtain ⟨q, hq⟩ := ih hnext rfl (hreachable.function f)
      exact ⟨q, (Reports.trans ⟨ds, hread, hbefore⟩ (reports_compileFunction hreachable hr h)).trans hq⟩
    · obtain ⟨q, hq⟩ := ih hnext rfl hreachable
      exact ⟨q, Reports.trans ⟨_, hread, horder⟩ hq⟩
    · exact ⟨_, _, hread, horder⟩

/-- The errors of a text are reported in the order in which they stand in it: those of a whole compilation in any
session, and those that reading alone finds. -/
theorem compileText_inOrder {s : Session} (hs : s.Reachable) (escapes : Bool) (source : String) :
    (∃ ds, (s.compileText escapes source).2.diagnostics = s.diagnostics ++ ds ∧
      (ds.map Diagnostic.pos).Pairwise (· ≤ ·)) ∧
    ((readSource escapes source).diagnostics.map Diagnostic.pos).Pairwise (· ≤ ·) := by
  constructor
  · obtain ⟨q, ds, hds, horder⟩ := reports_compileFor ((scan escapes source).items.length + 1) .start rfl hs
    exact ⟨ds, hds, horder.sorted⟩
  · obtain ⟨q, horder⟩ := readFor_inOrder ((scan escapes source).items.length + 1) .initial .start rfl
    exact horder.sorted

/-- An error in what a function means comes before one in the form of the function behind it. -/
theorem compileText_inOrder_interleaved :
    (initial "main" true).Reachable ∧
      ∃ ds,
        ((initial "main" true).compileText true "FUNC a() RETURN x FUNC b() RETURN\nFUNC c() RETURN y").2.diagnostics =
          (initial "main" true).diagnostics ++ ds ∧
        ds.length = 3 ∧ (ds.map Diagnostic.pos).Pairwise (· ≤ ·) := by
  have hs : (initial "main" true).Reachable := .initial "main" true
  obtain ⟨ds, hds, hsorted⟩ := (compileText_inOrder hs true "FUNC a() RETURN x FUNC b() RETURN\nFUNC c() RETURN y").1
  have hlength : ((initial "main" true).compileText true
      "FUNC a() RETURN x FUNC b() RETURN\nFUNC c() RETURN y").2.diagnostics.length = 3 := by
    decide +kernel
  refine ⟨hs, ds, hds, ?_, hsorted⟩
  rw [hds, List.length_append] at hlength
  exact (Nat.zero_add _).symm.trans hlength

end Session

end Funclet
