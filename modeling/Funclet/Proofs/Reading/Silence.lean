import Funclet.Proofs.Reading.Flattening
import Funclet.Proofs.Reading.Order
import Funclet.Proofs.Reading.Seam

/-!
# Functions are kept if nothing is reported of them

* `extents` : the functions of a text, each with the items from its `FUNC` to the token behind it;
* `extentsFor_within` : no function extends beyond what is still to be read where its `FUNC` is;
* `covered_of_quiet` : if nothing is reported, the functions cover the text;
* `quiet_of_covered` : if they cover it, nothing is reported: an item that is passed over belongs to no function, since
  it stands behind the functions before it and is no longer there for the ones behind it;
* `nextFunction_silent` : what an attempt reports behind its `FUNC` decides what comes of it.
-/

namespace Funclet.Grammar

/-- The functions of a text and the items that they are read from; `n` bounds the number of attempts. -/
def extentsFor : Nat → Operators → State → List (Function × List Item)
  | 0, _, _ => []
  | n + 1, ops, s =>
    let (attempt, s') := s.nextFunction ops
    let s' := { s' with reports := [] }
    match attempt with
    | .ended => []
    | .failed => extentsFor n ops s'
    | .function f =>
      (f, s.toFunction.stream.take (s.toFunction.stream.length - s'.stream.length)) ::
        extentsFor n (ops.define f.proto.kind).1 s'

def extents (escapes : Bool) (source : String) : List (Function × List Item) :=
  let s := State.ofScan (scan escapes source)
  extentsFor (s.ahead.length + 1) .initial s

variable {escapes : Bool} {source : String} {s s' q : State} {ops : Operators} {f : Function} {items : List Item}

/-! ## One attempt after the other -/

section Attempts

variable (n : Nat)

theorem readFor_ended (h : s.nextFunction ops = (.ended, s')) :
    (readFor (n + 1) ops s).functions = [] ∧ (readFor (n + 1) ops s).diagnostics = s'.reports ∧
      extentsFor (n + 1) ops s = [] := by
  simp only [readFor, extentsFor, h, Reading.diagnostics]
  simp [List.filterMap_map, Function.comp_def, Event.diagnostic?]

theorem readFor_failed (h : s.nextFunction ops = (.failed, s')) :
    (readFor (n + 1) ops s).functions = (readFor n ops { s' with reports := [] }).functions ∧
      (readFor (n + 1) ops s).diagnostics = s'.reports ++ (readFor n ops { s' with reports := [] }).diagnostics ∧
      extentsFor (n + 1) ops s = extentsFor n ops { s' with reports := [] } := by
  simp only [readFor, extentsFor, h, Reading.diagnostics, Reading.after]
  simp [List.filterMap_map, Function.comp_def, Event.diagnostic?]

theorem readFor_function (h : s.nextFunction ops = (.function f, s')) :
    (readFor (n + 1) ops s).functions =
        f :: (readFor n (ops.define f.proto.kind).1 { s' with reports := [] }).functions ∧
      (readFor (n + 1) ops s).diagnostics =
        s'.reports ++ (readFor n (ops.define f.proto.kind).1 { s' with reports := [] }).diagnostics ∧
      extentsFor (n + 1) ops s =
        (f, s.toFunction.stream.take (s.toFunction.stream.length - s'.stream.length)) ::
          extentsFor n (ops.define f.proto.kind).1 { s' with reports := [] } := by
  simp only [readFor, extentsFor, h, Reading.diagnostics, Reading.after]
  refine ⟨rfl, ?_, rfl⟩
  simp [List.filterMap_map, Function.comp_def, Event.diagnostic?]

end Attempts

theorem reports_of_quiet (n : Nat) (h : (readFor (n + 1) ops s).diagnostics = []) :
    (s.nextFunction ops).2.reports = [] := by
  rcases hnext : s.nextFunction ops with ⟨f | _ | _, s'⟩
  · rw [(readFor_function n hnext).2.1] at h
    exact (List.append_eq_nil_iff.1 h).1
  · rw [(readFor_failed n hnext).2.1] at h
    exact (List.append_eq_nil_iff.1 h).1
  · rw [(readFor_ended n hnext).2.1] at h
    exact h

/-- The functions with extents are those that are read. -/
theorem map_fst_extentsFor (n : Nat) (ops : Operators) (s : State) :
    (extentsFor n ops s).map Prod.fst = (readFor n ops s).functions := by
  induction n generalizing ops s with
  | zero => rfl
  | succ n ih =>
    rcases h : s.nextFunction ops with ⟨f | _ | _, s'⟩
    · obtain ⟨hfuns, -, hextents⟩ := readFor_function n h
      rw [hfuns, hextents, List.map_cons, ih]
    · obtain ⟨hfuns, -, hextents⟩ := readFor_failed n h
      rw [hfuns, hextents, ih]
    · obtain ⟨hfuns, -, hextents⟩ := readFor_ended n h
      rw [hfuns, hextents, List.map_nil]

/-- A text that starts with a token is read from there on. -/
theorem readFor_ofScan {x : Scan} (h : faultOf? x.items = none) (n : Nat) (ops : Operators) :
    readFor n ops (.ofScan x) = readFor n ops ((State.ofScan x).facing x.items) ∧
      extentsFor n ops (.ofScan x) = extentsFor n ops ((State.ofScan x).facing x.items) := by
  have hinvalid : (State.ofScan x).token = .invalid := rfl
  rw [← State.skip_ofScan h]
  cases n with
  | zero => exact ⟨rfl, rfl⟩
  | succ n => simp only [readFor, extentsFor, nextFunction_skip hinvalid, toFunction_skip hinvalid, and_self]

/-! ## Where functions extend to -/

theorem nextFunction_ended (h : (s.nextFunction ops).1 = .ended) :
    s.toFunction.token = .eof ∧ (s.nextFunction ops).2 = s.toFunction := by
  unfold State.nextFunction at h ⊢
  dsimp only at h ⊢
  split at h
  · rename_i heof
    exact ⟨heof, if_pos heof ▸ rfl⟩
  · cases hf : function ops { s.toFunction with failed := false } with
    | ok f t =>
      rw [hf] at h
      dsimp only at h
      split at h <;> cases h
    | error d t =>
      rw [hf] at h
      cases h

theorem nextFunction_of_eof (h : s.token = .eof) (ops : Operators) : s.nextFunction ops = (.ended, s) := by
  unfold State.nextFunction
  rw [toFunction_of_starts (h ▸ rfl)]
  exact if_pos h

/-- An attempt that does not find the end of the text has consumed a `FUNC`. -/
theorem nextFunction_within_next (h : s.toFunction.token = .keyword .FUNC) (hs : s.toFunction.next.Within items)
    (ops : Operators) : (s.nextFunction ops).2.Within items := by
  have hread := (changes_function ops { s.toFunction with failed := false }).moves fun _ hd => State.syntactic_fault? hd
  have hstart : (State.next { s.toFunction with failed := false }).Within items := by
    have hnext : State.next { s.toFunction with failed := false } = { s.toFunction.next with failed := false } := by
      obtain ⟨token, pos, _ | ⟨⟨p, _ | t⟩, items⟩, ending, failed, reports⟩ := s.toFunction <;> rfl
    rw [hnext]
    exact ⟨hs.ahead, hs.current⟩
  unfold State.nextFunction
  dsimp only
  rw [if_neg (by simp [h])]
  cases hf : function ops { s.toFunction with failed := false } with
  | ok f t =>
    rw [hf] at hread
    exact hread.1.within hstart
  | error d t =>
    rw [hf] at hread
    have ht := hread.1.within hstart
    exact (Moves.skipFor _ _ _).within ⟨ht.ahead, ht.current⟩

theorem nextFunction_within (hs : s.toFunction.Within items) (ops : Operators) :
    (s.nextFunction ops).2.Within items := by
  obtain ⟨failed, hmoves⟩ := nextFunction_moves ops s
  exact hmoves.within ⟨hs.ahead, hs.current⟩

/-- No function extends beyond what is still to be read. -/
theorem extentsFor_within (n : Nat) (ops : Operators) (hs : s.toFunction.Within items) :
    ∀ x ∈ extentsFor n ops s, ∀ item ∈ x.2, item ∈ items := by
  induction n generalizing ops s with
  | zero => exact fun x hx => by cases hx
  | succ n ih =>
    have hnext := nextFunction_within hs ops
    rcases h : s.nextFunction ops with ⟨f | _ | _, s'⟩
    all_goals
      rw [h] at hnext
      have hrest : (State.toFunction { s' with reports := [] }).Within items :=
        (Moves.toFunction _).within ⟨hnext.ahead, hnext.current⟩
    · obtain ⟨-, -, hextents⟩ := readFor_function n h
      obtain ⟨htoken, -, -⟩ := State.nextFunction_eq_function h
      rw [hextents]
      intro x hx item hitem
      rcases List.mem_cons.1 hx with rfl | hx
      · have hstream := List.mem_of_mem_take hitem
        rw [State.stream, if_neg (by simp [htoken])] at hstream
        exact (hs.current (by rw [htoken]; trivial)).subset hstream
      · exact ih _ hrest x hx item hitem
    · obtain ⟨-, -, hextents⟩ := readFor_failed n h
      rw [hextents]
      exact ih _ hrest
    · obtain ⟨-, -, hextents⟩ := readFor_ended n h
      rw [hextents]
      exact fun x hx => by cases hx

/-! ## Texts that are covered by functions -/

/-- Every item is one of some function. -/
def Covered (items : List Item) (xs : List (Function × List Item)) : Prop := ∀ item ∈ items, ∃ x ∈ xs, item ∈ x.2

theorem Derives.first_function {rest : List Item} (h : Derives ops (.function f) items rest) :
    first items = .keyword .FUNC := by
  cases h with
  | function hfunc => exact hfunc.first_eq

/-- What a function is read from, and what is left behind it. -/
theorem Derives.split {φ : Phrase} {rest : List Item} (h : Derives ops φ items rest) :
    items.take (items.length - rest.length) ++ rest = items ∧
      ∀ item ∈ items.take (items.length - rest.length), ∃ t, item.reading = .ok t := by
  obtain ⟨ts, ⟨front, rfl, hfront⟩, -⟩ := h.flattens
  rw [List.length_append, Nat.add_sub_cancel, List.take_left]
  refine ⟨rfl, fun item hitem => ?_⟩
  have hread : item.reading ∈ ts.map Except.ok := hfront ▸ List.mem_map_of_mem hitem
  obtain ⟨t, -, ht⟩ := List.mem_map.1 hread
  exact ⟨t, ht.symm⟩

/-- Where nothing is reported, there are only tokens, and functions cover them. -/
theorem covered_of_quiet (n : Nat) (ops : Operators) (hclean : Clean items) (hn : items.length < n)
    (h : (readFor n ops (q.facing items)).diagnostics = []) :
    (∀ item ∈ items, ∃ t, item.reading = .ok t) ∧ Covered items (extentsFor n ops (q.facing items)) := by
  induction n generalizing ops q items with
  | zero => exact absurd hn (Nat.not_lt_zero _)
  | succ n ih =>
    rcases nextFunction_quiet hclean q (reports_of_quiet n h) with ⟨rfl, -⟩ | ⟨f, rest, hf, hnext⟩
    · exact ⟨fun item hitem => (by cases hitem), fun item hitem => (by cases hitem)⟩
    · obtain ⟨-, hdiags, hextents⟩ := readFor_function n hnext
      have hto : (q.facing items).toFunction = q.facing items :=
        toFunction_of_starts (by rw [State.facing_token, hf.first_function]; rfl)
      have hrest : { State.facing { q with failed := false } rest with reports := [] } =
          State.facing { q with failed := false, reports := [] } rest := by
        rcases rest with _ | ⟨⟨p, _ | t⟩, rest⟩ <;> rfl
      rw [hdiags, hrest] at h
      rw [hto, hclean.stream_facing, (hclean.derives hf).stream_facing, hrest] at hextents
      have hlt := hf.length_lt rfl
      obtain ⟨hok, hcovered⟩ := ih _ (hclean.derives hf) (by omega) (List.append_eq_nil_iff.1 h).2
      obtain ⟨hsplit, hfront⟩ := hf.split
      have hitems {item : Item} (hitem : item ∈ items) :
          item ∈ items.take (items.length - rest.length) ∨ item ∈ rest := by
        rw [← hsplit] at hitem
        exact List.mem_append.1 hitem
      refine ⟨fun item hitem => (hitems hitem).elim (hfront item) (hok item), fun item hitem => ?_⟩
      rw [hextents]
      rcases hitems hitem with hitem | hitem
      · exact ⟨_, List.mem_cons_self, hitem⟩
      · obtain ⟨x, hx, hmem⟩ := hcovered item hitem
        exact ⟨x, List.mem_cons_of_mem _ hx, hmem⟩

theorem next_within (s : State) : s.next.Within s.ahead := by
  obtain ⟨token, pos, _ | ⟨⟨p, _ | t⟩, items⟩, ending, failed, reports⟩ := s
  · exact ⟨List.suffix_refl _, fun h => h.elim⟩
  · exact ⟨List.suffix_cons _ _, fun h => h.elim⟩
  · exact ⟨List.suffix_cons _ _, fun _ => List.suffix_refl _⟩

/-- A search consumes the current token if it does not stop there. -/
theorem skipUntil_within {stop : Token → Bool} (h : ¬stop s.token = true) : (s.skipUntil stop).Within s.ahead := by
  have hskip : s.skip.Within s.ahead := by
    unfold State.skip
    split
    · exact next_within s
    · exact ⟨(next_within s).ahead, (next_within s).current⟩
  unfold State.skipUntil
  generalize s.ahead.length = n
  cases n with
  | zero =>
    rw [State.skipFor, if_neg h]
    exact hskip
  | succ n =>
    rw [State.skipFor, if_neg h]
    exact (Moves.skipFor _ _ _).within hskip

/-- A token that starts no function is passed over before the next function is looked for. -/
theorem toFunction_within (hsolid : s.token.Solid) (hfunc : s.token ≠ .keyword .FUNC) :
    s.toFunction.Within s.ahead := by
  have hvalid : s.token ≠ .invalid := by
    intro heq
    rw [heq] at hsolid
    exact hsolid
  have hstarts : ¬startsFunction s.token = true := by
    unfold startsFunction
    split
    · exact absurd ‹_› hfunc
    · rename_i heq
      rw [heq] at hsolid
      exact hsolid.elim
    · exact Bool.false_ne_true
  unfold State.toFunction
  rw [skipUntil_of_stop (by simpa using hvalid)]
  dsimp only
  rw [if_neg hstarts]
  exact skipUntil_within (s := s.report _) hstarts

/-- Where functions cover a text, nothing is reported. -/
theorem quiet_of_covered (n : Nat) (ops : Operators) (hclean : Clean items) (hnodup : items.Nodup)
    (hquiet : q.reports = []) (h : Covered items (extentsFor n ops (q.facing items))) :
    (readFor n ops (q.facing items)).diagnostics = [] := by
  induction n generalizing ops q items with
  | zero => rfl
  | succ n ih =>
    rcases items with _ | ⟨⟨pos, e | t⟩, rest⟩
    · rw [(readFor_ended n (nextFunction_of_eof rfl ops)).2.1, State.facing_reports, hquiet]
    · cases hclean.faultless
    have hfirst {m : Nat} {ops' : Operators} {u : State} (hu : u.toFunction.Within rest) :
        ¬Covered (⟨pos, .ok t⟩ :: rest) (extentsFor m ops' u) := by
      intro hc
      obtain ⟨x, hx, hmem⟩ := hc _ List.mem_cons_self
      exact (List.nodup_cons.1 hnodup).1 (extentsFor_within m ops' hu x hx _ hmem)
    have hsolid : t.Solid := hclean.solid _ List.mem_cons_self t rfl
    obtain rfl : t = .keyword .FUNC := by
      by_contra hfunc
      exact hfirst (toFunction_within (s := q.facing (⟨pos, .ok t⟩ :: rest)) hsolid hfunc) h
    have hto := toFunction_of_starts (s := q.facing (⟨pos, .ok (.keyword .FUNC)⟩ :: rest)) rfl
    have hstream : (q.facing (⟨pos, .ok (.keyword .FUNC)⟩ :: rest)).toFunction.stream =
        ⟨pos, .ok (.keyword .FUNC)⟩ :: rest := by
      rw [hto, hclean.stream_facing]
    rcases hnext : (q.facing (⟨pos, .ok (.keyword .FUNC)⟩ :: rest)).nextFunction ops with ⟨f | _ | _, s'⟩
    · obtain ⟨hf, hs'⟩ := State.derives_of_clean (by rw [hstream]; exact hclean) hnext
      obtain ⟨-, hdiags, hextents⟩ := readFor_function n hnext
      rw [hstream] at hf hextents
      have hreports : s'.reports = [] := by
        rw [hs', State.facing_reports, hto, State.facing_reports, hquiet]
      have hclear : { s' with reports := [] } = s' := by
        obtain ⟨token, pos, ahead, ending, failed, reports⟩ := s'
        rw [show reports = [] from hreports]
      rw [hclear] at hdiags hextents
      rw [hdiags, hreports, List.nil_append]
      generalize s'.stream = back at hf hs' hextents
      rw [hextents] at h
      obtain ⟨hsplit, -⟩ := hf.split
      have hback : Covered back (extentsFor n (ops.define f.proto.kind).1 s') := by
        intro item hitem
        obtain ⟨x, hx, hmem⟩ := h item (hf.suffix.subset hitem)
        rcases List.mem_cons.1 hx with rfl | hx
        · rw [← hsplit] at hnodup
          exact absurd rfl ((List.nodup_append.1 hnodup).2.2 item hmem item hitem)
        · exact ⟨x, hx, hmem⟩
      rw [hs'] at hback ⊢
      refine ih _ (hclean.derives hf) (hnodup.sublist hf.suffix.sublist) ?_ hback
      rw [hto, State.facing_reports, hquiet]
    · rw [(readFor_failed n hnext).2.2] at h
      have hs' := nextFunction_within_next (by rw [hto]; rfl) (by rw [hto]; exact next_within _) ops
      rw [hnext] at hs'
      exact absurd h (hfirst ((Moves.toFunction _).within ⟨hs'.ahead, hs'.current⟩))
    · have hended := (nextFunction_ended (by rw [hnext])).1
      rw [hto] at hended
      cases hended

/-! ## Source texts -/

theorem Reached.ends (h : Reached escapes source s) : s.Ends := by
  induction h with
  | start => exact State.ends_ofScan escapes source
  | @next s _ ops ih =>
    obtain ⟨failed, hmoves⟩ := nextFunction_moves ops s
    have hto := (Moves.toFunction s).ends ih
    exact hmoves.ends ⟨hto.ahead, hto.token⟩
  | handOver _ ih => exact ⟨ih.ahead, ih.token⟩

/-- Every function is derived from its own items, whatever stands behind them. -/
theorem extentsFor_derives (n : Nat) (ops : Operators) (hs : Reached escapes source s) :
    ∀ x ∈ extentsFor n ops s, ∃ ops rest, Derives ops (.function x.1) (x.2 ++ rest) rest := by
  induction n generalizing ops s with
  | zero => exact fun x hx => by cases hx
  | succ n ih =>
    have hnext := (hs.next ops).handOver
    rcases h : s.nextFunction ops with ⟨f | _ | _, s'⟩
    all_goals rw [h] at hnext
    · obtain ⟨hf, -⟩ := hs.derives h
      rw [(readFor_function n h).2.2]
      intro x hx
      rcases List.mem_cons.1 hx with rfl | hx
      · refine ⟨ops, s'.stream, ?_⟩
        rw [hf.split.1]
        exact hf
      · exact ih _ hnext x hx
    · rw [(readFor_failed n h).2.2]
      exact ih _ hnext
    · rw [(readFor_ended n h).2.2]
      exact fun x hx => by cases hx

/-- Nothing is reported of a text if and only if it consists of tokens and functions cover it. -/
theorem diagnostics_eq_nil_iff (escapes : Bool) (source : String) :
    (readSource escapes source).diagnostics = [] ↔
      (∀ item ∈ (scan escapes source).items, ∃ t, item.reading = .ok t) ∧
        Covered (scan escapes source).items (extents escapes source) := by
  have hclean (hfault : faultOf? (scan escapes source).items = none) : Clean (scan escapes source).items :=
    ⟨hfault, fun _ hitem _ ht => Scan.solid_of_mem hitem ht⟩
  rw [readSource, extents]
  constructor
  · intro h
    have hfault := faultOf?_of_quiet (reports_of_quiet _ h)
    obtain ⟨hread, hextents⟩ := readFor_ofScan hfault ((scan escapes source).items.length + 1) .initial
    change (readFor ((scan escapes source).items.length + 1) .initial _).diagnostics = [] at h
    change _ ∧ Covered _ (extentsFor ((scan escapes source).items.length + 1) .initial _)
    rw [hread] at h
    rw [hextents]
    exact covered_of_quiet _ _ (hclean hfault) (Nat.lt_succ_self _) h
  · rintro ⟨hok, hcovered⟩
    have hfault : faultOf? (scan escapes source).items = none := by
      rcases hitems : (scan escapes source).items with _ | ⟨⟨p, e | t⟩, items⟩
      · rfl
      · obtain ⟨t, ht⟩ := hok ⟨p, .error e⟩ (hitems ▸ List.mem_cons_self)
        cases ht
      · rfl
    have hnodup : (scan escapes source).items.Nodup := by
      have hsorted := (List.pairwise_append.1 (Scan.scan_ordered escapes source).1).1
      exact (List.pairwise_map.1 hsorted).imp fun h heq => h.ne (congrArg Item.pos heq)
    obtain ⟨hread, hextents⟩ := readFor_ofScan hfault ((scan escapes source).items.length + 1) .initial
    change (readFor ((scan escapes source).items.length + 1) .initial _).diagnostics = []
    change Covered _ (extentsFor ((scan escapes source).items.length + 1) .initial _) at hcovered
    rw [hextents] at hcovered
    rw [hread]
    exact quiet_of_covered _ _ (hclean hfault) hnodup rfl hcovered

/-- A function is kept if and only if nothing is reported behind its `FUNC`; at the end of the text there is nothing
left to be read. A text of which nothing is reported consists of tokens that belong to the functions that are read from
it, and nothing is reported of such a text. -/
theorem nextFunction_silent (escapes : Bool) (source : String) :
    (∀ s ops, Reached escapes source s →
      (s.nextFunction ops).1 = .ended ∧ (s.nextFunction ops).2.token = .eof ∧ (s.nextFunction ops).2.ahead = [] ∨
      (s.nextFunction ops).1 = .failed ∧ s.toFunction.token = .keyword .FUNC ∧
        (∃ ds, ds ≠ [] ∧ (s.nextFunction ops).2.reports = s.toFunction.reports ++ ds ∧
          ∀ d ∈ ds, s.toFunction.pos ≤ d.pos) ∨
      (∃ f, (s.nextFunction ops).1 = .function f) ∧ s.toFunction.token = .keyword .FUNC ∧
        (s.nextFunction ops).2.reports = s.toFunction.reports) ∧
    (extents escapes source).map Prod.fst = (readSource escapes source).functions ∧
    (∀ x ∈ extents escapes source, ∃ ops rest, Derives ops (.function x.1) (x.2 ++ rest) rest) ∧
    ((readSource escapes source).diagnostics = [] ↔
      (∀ item ∈ (scan escapes source).items, ∃ t, item.reading = .ok t) ∧
        Covered (scan escapes source).items (extents escapes source)) := by
  refine ⟨fun s ops hs => ?_, map_fst_extentsFor _ _ _, extentsFor_derives _ _ .start,
    diagnostics_eq_nil_iff escapes source⟩
  obtain ⟨-, -, ds, hds, horder, hfailed⟩ := nextFunction_heard hs.placed ops
  have hto := (Moves.toFunction s).ends hs.ends
  rcases h : s.nextFunction ops with ⟨f | _ | _, s'⟩
  all_goals rw [h] at hds horder hfailed
  · obtain ⟨htoken, -, -⟩ := State.nextFunction_eq_function h
    refine .inr (.inr ⟨⟨f, rfl⟩, htoken, ?_⟩)
    dsimp only
    rw [(hs.derives h).2, State.facing_reports]
  · refine .inr (.inl ⟨rfl, ?_, ds, hfailed rfl, hds, fun d hd => (horder.between hd).1⟩)
    refine s.toFunction_token.resolve_left fun heof => ?_
    rw [State.nextFunction, if_pos heof] at h
    cases h
  · obtain ⟨heof, hs'⟩ := nextFunction_ended (s := s) (by rw [h])
    rw [h] at hs'
    rw [hs']
    exact .inl ⟨rfl, heof, hto.token heof⟩

/-- A function that ends too soon is not kept, and something is reported of it. -/
theorem nextFunction_silent_cut_short :
    Reached true "FUNC a() RETURN" (.ofScan (scan true "FUNC a() RETURN")) ∧
      ∃ ds, ds ≠ [] ∧ ((State.ofScan (scan true "FUNC a() RETURN")).nextFunction .initial).2.reports =
        (State.ofScan (scan true "FUNC a() RETURN")).toFunction.reports ++ ds := by
  refine ⟨.start, ?_⟩
  rcases (nextFunction_silent true "FUNC a() RETURN").1 _ .initial .start with ⟨hended, -⟩ | ⟨-, -, hds⟩ | ⟨⟨f, hf⟩, -⟩
  · have htoken : (State.ofScan (scan true "FUNC a() RETURN")).toFunction.token ≠ .eof := by decide +kernel
    exact absurd (nextFunction_ended hended).1 htoken
  · obtain ⟨ds, hne, hds, -⟩ := hds
    exact ⟨ds, hne, hds⟩
  · have hnone : ((State.ofScan (scan true "FUNC a() RETURN")).nextFunction .initial).1.function?.isNone = true := by
      decide +kernel
    rw [hf] at hnone
    cases hnone

end Funclet.Grammar
