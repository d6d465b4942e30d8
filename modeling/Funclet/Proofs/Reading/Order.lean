import Funclet.Proofs.Reading.Attempts
import Funclet.Proofs.Reading.Changes
import Funclet.Proofs.Scanning.Order

/-!
# The order of reports

* `InOrder p ds q` : diagnostics in the order of the text, between two places; it composes (`InOrder.trans`);
* `State.Placed` : what a reader has still to read stands one behind the other, behind its own place;
* `Heard s ds r` : since the state `s`, the reader `r` has reported `ds`, in order, and is about to report no error that
  stands before them or behind its own place;
* `Change.heard` : this is kept by all that a reader can do;
* `nextFunction_heard` : so it is with an attempt to read a function, before and behind its `FUNC`; and an attempt that
  fails has reported something behind it;
* `Reached.placed` : and it is so all along the text.
-/

namespace Funclet

/-- From `p` to `q`, the diagnostics stand in the order of the text. -/
def InOrder : Pos → List Diagnostic → Pos → Prop
  | p, [], q => p ≤ q
  | p, d :: ds, q => p ≤ d.pos ∧ InOrder d.pos ds q

namespace InOrder

variable {p q r : Pos} {d : Diagnostic} {ds es : List Diagnostic}

theorem refl (p : Pos) : InOrder p [] p := le_refl p

theorem single (h : p ≤ d.pos) (h' : d.pos ≤ q) : InOrder p [d] q := ⟨h, h'⟩

theorem of_le (h : p ≤ q) (h' : InOrder q ds r) : InOrder p ds r := by
  cases ds with
  | nil => exact h.trans h'
  | cons d ds => exact ⟨h.trans h'.1, h'.2⟩

theorem trans (h : InOrder p ds q) (h' : InOrder q es r) : InOrder p (ds ++ es) r := by
  induction ds generalizing p with
  | nil => exact of_le h h'
  | cons d ds ih => exact ⟨h.1, ih h.2⟩

theorem mono (h : InOrder p ds q) (h' : q ≤ r) : InOrder p ds r := by
  rw [← List.append_nil ds]
  exact h.trans h'

theorem between (h : InOrder p ds q) (hd : d ∈ ds) : p ≤ d.pos ∧ d.pos ≤ q := by
  have hle {p : Pos} {ds : List Diagnostic} (h : InOrder p ds q) : p ≤ q := by
    induction ds generalizing p with
    | nil => exact h
    | cons d ds ih => exact h.1.trans (ih h.2)
  induction ds generalizing p with
  | nil => cases hd
  | cons e ds ih =>
    rcases List.mem_cons.1 hd with rfl | hd
    · exact ⟨h.1, hle h.2⟩
    · exact ⟨h.1.trans (ih h.2 hd).1, (ih h.2 hd).2⟩

theorem sorted (h : InOrder p ds q) : (ds.map Diagnostic.pos).Pairwise (· ≤ ·) := by
  induction ds generalizing p with
  | nil => exact .nil
  | cons d ds ih =>
    refine List.pairwise_cons.2 ⟨fun p hp => ?_, ih h.2⟩
    obtain ⟨e, he, rfl⟩ := List.mem_map.1 hp
    exact (h.2.between he).1

end InOrder

namespace Grammar

variable {s s' : State} {d : Diagnostic}

/-! ## Places -/

/-- The current token, the items ahead and the end of the text stand one behind the other. -/
def State.Placed (s : State) : Prop := (s.pos :: s.ahead.map Item.pos ++ [s.ending]).Pairwise (· ≤ ·)

namespace State

theorem Placed.next (h : s.Placed) : s.next.Placed ∧ s.pos ≤ s.next.pos := by
  obtain ⟨token, pos, ahead, ending, failed, reports⟩ := s
  unfold Placed at h
  rcases ahead with _ | ⟨⟨p, _ | t⟩, items⟩
  · refine ⟨?_, (List.pairwise_cons.1 h).1 _ List.mem_cons_self⟩
    exact List.pairwise_cons.2 ⟨fun p hp => (List.mem_singleton.1 hp).ge, List.pairwise_singleton _ _⟩
  all_goals exact ⟨(List.pairwise_cons.1 h).2, (List.pairwise_cons.1 h).1 _ List.mem_cons_self⟩

/-- What is wrong with the next item is wrong where the reader comes to. -/
theorem pos_of_fault? (h : s.fault? = some d) : d.pos = s.next.pos := by
  obtain ⟨token, pos, _ | ⟨⟨p, _ | t⟩, items⟩, ending, failed, reports⟩ := s
  · cases h
  · cases h
    rfl
  · cases h

end State

/-! ## Reports -/

/-- Since the state `s`, the reader has reported `ds`. They and what it is about to report are in order. -/
structure Heard (s : State) (ds : List Diagnostic) (r : Reader) : Prop where
  placed : r.state.Placed
  reports : r.state.reports = s.reports ++ ds
  order : InOrder s.pos (ds ++ r.error.toList) r.state.pos
  /-- No function is marked as failed without a report. -/
  failed : r.state.failed = true → s.failed = true ∨ ds ≠ []

namespace Heard

variable {ds : List Diagnostic}

theorem refl (h : s.Placed) : Heard s [] ⟨s, none⟩ := ⟨h, (List.append_nil _).symm, .refl _, .inl⟩

theorem next (h : Heard s ds ⟨s', none⟩) (hd : s'.pos ≤ d.pos) (hd' : d.pos ≤ s'.next.pos) :
    Heard s ds ⟨s'.next, some d⟩ := by
  refine ⟨h.placed.next.1, s'.reports_next.trans h.reports, ?_, fun hf => h.failed (s'.next_failed ▸ hf)⟩
  have horder := h.order
  rw [Option.toList_none, List.append_nil] at horder
  exact horder.trans (.single hd hd')

theorem trans {es : List Diagnostic} {r : Reader} (h : Heard s ds ⟨s', none⟩) (h' : Heard s' es r) :
    Heard s (ds ++ es) r := by
  refine ⟨h'.placed, ?_, ?_, fun hf => ?_⟩
  · rw [h'.reports, show s'.reports = s.reports ++ ds from h.reports, List.append_assoc]
  · have horder := h.order
    rw [Option.toList_none, List.append_nil] at horder
    rw [List.append_assoc]
    exact horder.trans h'.order
  · rcases h'.failed hf with hf | hes
    · exact (h.failed hf).imp_right fun hds => List.append_ne_nil_of_left_ne_nil hds es
    · exact .inr (List.append_ne_nil_of_right_ne_nil ds hes)

theorem report (h : Heard s ds ⟨s', some d⟩) (failed : Bool) :
    Heard s (ds ++ [d]) ⟨{ s'.report d with failed := failed }, none⟩ := by
  refine ⟨h.placed, ?_, ?_, fun _ => .inr (List.concat_ne_nil d ds)⟩
  · change s'.reports ++ [d] = _
    rw [show s'.reports = s.reports ++ ds from h.reports, List.append_assoc]
  · have horder := h.order
    rwa [← List.append_nil (ds ++ _)] at horder

end Heard

/-- All that a reader can do keeps its reports in order. -/
theorem Change.heard {r r' : Reader} (h : Change r r') {ds : List Diagnostic} (hr : Heard s ds r) :
    ∃ es, Heard s es r' := by
  cases h with
  | @advance s' _ _ =>
    refine ⟨ds, hr.placed.next.1, s'.reports_next.trans hr.reports, hr.order.mono hr.placed.next.2, ?_⟩
    exact fun hf => hr.failed (s'.next_failed ▸ hf)
  | stumble _ hd =>
    have hpos := State.pos_of_fault? hd
    exact ⟨ds, hr.next (hpos ▸ hr.placed.next.2) hpos.le⟩
  | fail _ =>
    refine ⟨ds, hr.placed, hr.reports, ?_, hr.failed⟩
    have horder := hr.order
    rw [Option.toList_none, List.append_nil] at horder
    exact horder.trans (.single le_rfl le_rfl)
  | @stray s' =>
    refine ⟨ds, ?_⟩
    cases hd : s'.fault? with
    | none => exact hr.next le_rfl hr.placed.next.2
    | some d =>
      have hpos := State.pos_of_fault? hd
      exact hr.next (hpos ▸ hr.placed.next.2) hpos.le
  | reject _ => exact ⟨ds, hr.next le_rfl hr.placed.next.2⟩
  | @report s' _ => exact ⟨_, hr.report s'.failed⟩
  | spoil => exact ⟨_, hr.report true⟩

theorem Changes.heard {r r' : Reader} (h : Changes r r') {ds : List Diagnostic} (hr : Heard s ds r) :
    ∃ es, Heard s es r' := by
  induction h with
  | refl => exact ⟨ds, hr⟩
  | tail _ hchange ih =>
    obtain ⟨es, hes⟩ := ih
    exact hchange.heard hes

/-- What is reported before the `FUNC` of an attempt is in order, and so is what is reported behind it. An attempt that
fails has reported something behind it. -/
theorem nextFunction_heard (hs : s.Placed) (ops : Operators) :
    (∃ ds, s.toFunction.reports = s.reports ++ ds ∧ InOrder s.pos ds s.toFunction.pos) ∧
      (s.nextFunction ops).2.Placed ∧
      ∃ ds, (s.nextFunction ops).2.reports = s.toFunction.reports ++ ds ∧
        InOrder s.toFunction.pos ds (s.nextFunction ops).2.pos ∧ ((s.nextFunction ops).1 = .failed → ds ≠ []) := by
  obtain ⟨before, hbefore⟩ := (Changes.toFunction s).heard (.refl hs)
  have horder := hbefore.order
  rw [Option.toList_none, List.append_nil] at horder
  refine ⟨⟨before, hbefore.reports, horder⟩, ?_⟩
  have hto : s.toFunction.Placed := hbefore.placed
  unfold State.nextFunction
  generalize s.toFunction = t at hto ⊢
  dsimp only
  split
  · exact ⟨hto, [], (List.append_nil _).symm, .refl _, fun h => by cases h⟩
  · have hplaced : State.Placed { t with failed := false } := hto
    obtain ⟨ds, hstart⟩ : ∃ ds, Heard { t with failed := false } ds
        ⟨State.next { t with failed := false }, State.fault? { t with failed := false }⟩ := by
      cases hd : State.fault? { t with failed := false } with
      | none =>
        exact ⟨[], hplaced.next.1, (State.reports_next _).trans (List.append_nil _).symm, hplaced.next.2,
          fun hf => by rw [State.next_failed] at hf; cases hf⟩
      | some d =>
        have hpos := State.pos_of_fault? hd
        exact ⟨[], (Heard.refl hplaced).next (hpos ▸ hplaced.next.2) hpos.le⟩
    obtain ⟨ds, hread⟩ := (changes_function ops { t with failed := false }).heard hstart
    cases hres : function ops { t with failed := false } with
    | ok f u =>
      rw [hres] at hread
      have horder := hread.order
      rw [Reader.of, Option.toList_none, List.append_nil] at horder
      refine ⟨hread.placed, ds, hread.reports, horder, fun hfailed => ?_⟩
      dsimp only at hfailed
      split at hfailed
      · exact (hread.failed ‹_›).resolve_left Bool.false_ne_true
      · cases hfailed
    | error d u =>
      rw [hres] at hread
      have hskip : Changes ⟨u.report d, none⟩ ⟨(u.report d).skipUntil startsFunction, none⟩ :=
        .skipFor (fun _ ht => ht) _ _
      have hreported := hread.report u.failed
      obtain ⟨es, hes⟩ := hskip.heard (.refl hreported.placed)
      have hall := hreported.trans hes
      have horder := hall.order
      rw [Option.toList_none, List.append_nil] at horder
      refine ⟨hall.placed, ds ++ [d] ++ es, hall.reports, horder, fun _ => ?_⟩
      exact List.append_ne_nil_of_left_ne_nil (List.concat_ne_nil d ds) es

/-- A reader stands before all that it has still to read. -/
theorem Reached.placed {escapes : Bool} {source : String} (h : Reached escapes source s) : s.Placed := by
  induction h with
  | start =>
    obtain ⟨hsorted, hstart⟩ := Scan.scan_ordered escapes source
    exact List.pairwise_cons.2 ⟨hstart, hsorted.imp fun h => h.le⟩
  | next _ ops ih => exact (nextFunction_heard ih ops).2.1
  | handOver _ ih => exact ih

end Grammar

end Funclet
