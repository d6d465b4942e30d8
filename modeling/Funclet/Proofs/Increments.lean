import Funclet.Proofs.Lowering.Positions
import Funclet.Proofs.OperatorTable
import Funclet.Proofs.Reading.Flattening
import Funclet.Proofs.Reading.Seam
import Funclet.Proofs.Reading.Uniform
import Funclet.Proofs.Scanning.Lines

/-!
# Texts compiled one after the other

* `compileFor_enough` : the bound on the number of attempts does not matter, as long as it is not reached;
* `Compiles` : a text of functions, each compiled in the session that the ones before it leave;
* `compiles_compileText` : such is a text with whose form nothing is wrong;
* `Compiles.append` : functions behind it are compiled in the session that it leaves;
* `compileFor_movedSince` : a text is compiled the same wherever it stands;
* `compileText_append` : two texts in one session come to the same as one text with a line break between them.
-/

namespace Funclet

open Grammar Lowering

/-! ## The bound -/

/-- An attempt takes a `FUNC`, unless it finds the end of the text. -/
theorem Grammar.State.nextFunction_fewer {r : State} (hr : r.Ends) {ops : Operators}
    (h : (r.nextFunction ops).1 ≠ .ended) :
    (r.nextFunction ops).2.Ends ∧ (r.nextFunction ops).2.funcs.length < r.funcs.length := by
  rcases nextFunction_funcs hr ops with ⟨hended, -⟩ | ⟨-, t, -, hfunc, hpassed, hacc⟩
  · exact absurd hended h
  · obtain ⟨lost, heq, -⟩ := hacc.marks
    refine ⟨hacc.ends (hpassed.ends hr).next, ?_⟩
    rw [← hpassed.funcs, funcs_of_eq hfunc, ← funcs_next, heq, List.length_cons, List.length_append]
    omega

theorem Grammar.length_funcs_le (items : List Item) : (funcs items).length ≤ items.length := by
  fun_induction funcs items with
  | case1 => exact Nat.le_refl 0
  | case2 p items ih => exact Nat.succ_le_succ ih
  | case3 p items reading _ ih => exact Nat.le_succ_of_le ih

/-- No state is at more functions than there are items from its token on. -/
theorem Grammar.State.length_funcs_facing_le (q : State) (items : List Item) :
    (q.facing items).funcs.length ≤ items.length := by
  rw [facing, funcs_next]
  exact length_funcs_le items

theorem Grammar.State.ends_facing (q : State) {items : List Item}
    (h : ∀ item ∈ items, ∀ t, item.reading = .ok t → t ≠ .eof) : (q.facing items).Ends := by
  rcases items with _ | ⟨⟨p, _ | t⟩, items⟩
  · exact ⟨fun _ hitem => absurd hitem List.not_mem_nil, fun _ => rfl⟩
  · exact ⟨fun item hitem => h item (List.mem_cons_of_mem _ hitem), nofun⟩
  · refine ⟨fun item hitem => h item (List.mem_cons_of_mem _ hitem), fun heof => ?_⟩
    exact absurd heof (h _ List.mem_cons_self t rfl)

namespace Session

/-- The bound on the number of attempts does not matter, as long as it is not reached. -/
theorem compileFor_enough (n : Nat) : ∀ (k : Nat) (r : State) (s : Session), r.Ends → r.funcs.length < n →
    r.funcs.length < k → compileFor n r s = compileFor k r s := by
  induction n with
  | zero => exact fun _ _ _ _ hn => absurd hn (Nat.not_lt_zero _)
  | succ n ih =>
    intro k r s hr hn hk
    obtain _ | k := k
    · exact absurd hk (Nat.not_lt_zero _)
    -- An attempt that does not end takes a `FUNC`, so what is left of either bound is enough for what is left to read.
    have hnext (h : (r.nextFunction s.operators).1 ≠ .ended) (t : Session) :
        compileFor n { (r.nextFunction s.operators).2 with reports := [] } t =
          compileFor k { (r.nextFunction s.operators).2 with reports := [] } t := by
      obtain ⟨hends, hlt⟩ := State.nextFunction_fewer hr h
      refine ih k _ t ⟨hends.ahead, hends.token⟩ ?_ ?_
      · exact Nat.lt_of_lt_of_le hlt (Nat.le_of_lt_succ hn)
      · exact Nat.lt_of_lt_of_le hlt (Nat.le_of_lt_succ hk)
    simp only [compileFor, readFunction]
    cases ha : (r.nextFunction s.operators).1 with
    | ended => rfl
    | failed => exact hnext (by simp [ha]) _
    | function f => simp only [hnext (by simp [ha])]

/-! ## Reports -/

section Reports

variable {P Q R : Diagnostic → Prop} {s t u : Session}

theorem Adds.split (h : Adds P s u) (h₁ : Adds Q s t) (h₂ : Adds R t u) : Adds P s t ∧ Adds P t u := by
  obtain ⟨ds, hds, hP⟩ := h
  obtain ⟨es, hes, -⟩ := h₁
  obtain ⟨fs, hfs, -⟩ := h₂
  have heq : ds = es ++ fs := by
    rw [hfs, hes, List.append_assoc] at hds
    exact (List.append_cancel_left hds).symm
  subst heq
  refine ⟨⟨es, hes, fun d hd => hP d ?_⟩, fs, hfs, fun d hd => hP d ?_⟩
  · exact List.mem_append_left _ hd
  · exact List.mem_append_right _ hd

theorem adds_readFunction (r : State) (s : Session) : Adds (fun _ => True) s (s.readFunction r).2.2 :=
  ⟨_, diagnostics_reports s _, fun _ _ => trivial⟩

theorem adds_compileFor_succ {n : Nat}
    (ih : ∀ (r : State) (s : Session), s.Reachable → Adds (fun _ => True) s (compileFor n r s).2) (r : State)
    (hs : s.Reachable) : Adds (fun _ => True) (s.readFunction r).2.2 (compileFor (n + 1) r s).2 := by
  have hread : (s.readFunction r).2.2.Reachable := hs.record _
  rw [compileFor]
  generalize s.readFunction r = read at hread
  obtain ⟨f | _ | _, r', s'⟩ := read
  · exact (adds_compileFunction hread fun _ _ _ => trivial).trans (ih _ _ (hread.function f))
  · exact ih _ _ hread
  · exact .refl _ _

/-- What has been reported is not taken back. -/
theorem adds_compileFor (n : Nat) (r : State) (s : Session) (hs : s.Reachable) :
    Adds (fun _ => True) s (compileFor n r s).2 := by
  induction n generalizing r s with
  | zero => exact .refl _ s
  | succ n ih => exact (adds_readFunction r s).trans (adds_compileFor_succ ih r hs)

/-- Where nothing is wrong with the form of a text, the first attempt reports nothing. -/
theorem reports_eq_nil {n : Nat} {r : State} (hs : s.Reachable) (hr : r.reports = [])
    (h : Adds (fun d => ¬ d.Syntactic) s (compileFor (n + 1) r s).2) : (r.nextFunction s.operators).2.reports = [] := by
  obtain ⟨ds, hds, hsyn⟩ := nextFunction_reports s.operators r
  rw [hr, List.nil_append] at hds
  obtain ⟨⟨es, hes, hother⟩, -⟩ := h.split (adds_readFunction r s) (adds_compileFor_succ (adds_compileFor n) r hs)
  have heq : es = ds := by
    have hread : (s.readFunction r).2.2.diagnostics = s.diagnostics ++ ds := hds ▸ diagnostics_reports s _
    exact List.append_cancel_left (hes.symm.trans hread)
  rw [hds, List.eq_nil_iff_forall_not_mem]
  exact fun d hd => hother d (heq ▸ hd) (hsyn d hd)

end Reports

/-! ## Functions one by one -/

/-- The items are functions one behind the other; each is compiled in the session that the ones before it leave. -/
inductive Compiles : List Item → Session → List Body → Session → Prop
  | ended (s : Session) : Compiles [] s [] s
  | function {items rest : List Item} {f : Function} {s t : Session} {bodies : List Body}
      (hf : Derives s.operators (.function f) items rest) (hrest : Compiles rest (s.compileFunction f).2 bodies t) :
      Compiles items s ((s.compileFunction f).1.toList ++ bodies) t

variable {items more : List Item} {s t : Session} {bodies : List Body} {q : State}

theorem readFunction_quiet {r r' : State} {a : Attempt} (h : r.nextFunction s.operators = (a, r'))
    (hr : r'.reports = []) : s.readFunction r = (a, r', s) := by
  obtain ⟨token, pos, ahead, ending, failed, reports⟩ := r'
  dsimp only at hr
  subst hr
  simp only [readFunction, h, record, List.map_nil, List.append_nil]

/-- A text with whose form nothing is wrong is compiled function by function. -/
theorem compiles_of_adds (n : Nat) (hclean : Clean items) (hs : s.Reachable) (hn : items.length < n)
    (hq : q.failed = false ∧ q.reports = [])
    (h : Adds (fun d => ¬ d.Syntactic) s (compileFor n (q.facing items) s).2) :
    Compiles items s (compileFor n (q.facing items) s).1 (compileFor n (q.facing items) s).2 := by
  induction n generalizing items s with
  | zero => exact absurd hn (Nat.not_lt_zero _)
  | succ n ih =>
    have hreports := reports_eq_nil hs ((q.facing_reports items).trans hq.2) h
    have hkept : { q with failed := false } = q := by
      rw [← hq.1]
    rcases nextFunction_quiet hclean q hreports with ⟨rfl, hended⟩ | ⟨f, rest, hf, hnext⟩
    · simp only [compileFor, readFunction_quiet hended ((q.facing_reports _).trans hq.2)]
      exact .ended s
    · rw [hkept] at hnext
      simp only [compileFor, readFunction_quiet hnext ((q.facing_reports _).trans hq.2)] at h ⊢
      have hadds := adds_compileFor n (q.facing rest) _ (hs.function f)
      refine .function hf (ih (hclean.derives hf) (hs.function f) ?_ ?_)
      · exact Nat.lt_of_lt_of_le (hf.length_lt rfl) (Nat.le_of_lt_succ hn)
      · exact (h.split (adds_compileFunction hs (P := fun _ => True) fun _ _ _ => trivial) hadds).2

/-- Every item is a token. -/
theorem Compiles.tokens (h : Compiles items s bodies t) : ∀ item ∈ items, ∃ t, item.reading = .ok t := by
  induction h with
  | ended s => exact fun _ hitem => absurd hitem List.not_mem_nil
  | @function items rest f s t bodies hf _ ih =>
    obtain ⟨ts, ⟨front, rfl, hfront⟩, -⟩ := hf.flattens
    intro item hitem
    rcases List.mem_append.1 hitem with hmem | hmem
    · have hreading := List.mem_map_of_mem (f := Item.reading) hmem
      rw [hfront] at hreading
      obtain ⟨t, -, ht⟩ := List.mem_map.1 hreading
      exact ⟨t, ht.symm⟩
    · exact ih item hmem

theorem Compiles.reachable (h : Compiles items s bodies t) (hs : s.Reachable) : t.Reachable := by
  induction h with
  | ended s => exact hs
  | function _ _ ih => exact ih (hs.function _)

/-- Functions that stand behind others are compiled in the session that those leave. -/
theorem Compiles.append (h : Compiles items s bodies t) (hmore : first more = .keyword .FUNC)
    (hends : ∀ item ∈ items ++ more, ∀ u, item.reading = .ok u → u ≠ .eof) (hq : q.failed = false ∧ q.reports = [])
    {n : Nat} (hn : (items ++ more).length < n) :
    compileFor n (q.facing (items ++ more)) s =
      (bodies ++ (compileFor n (q.facing more) t).1, (compileFor n (q.facing more) t).2) := by
  induction h with
  | ended s => rfl
  | @function items rest f s t bodies hf _ ih =>
    obtain _ | n := n
    · exact absurd hn (Nat.not_lt_zero _)
    -- A `FUNC` goes on with no phrase, so the function is derived as it is at the end of a text.
    have hjoined := hf.append hmore
    have hstarts : startsFunction (q.facing (items ++ more)).token = true := by
      rw [State.facing_token, hjoined.function_first]
      rfl
    have hread : { (q.facing (items ++ more)).toFunction with failed := false } = q.facing (items ++ more) := by
      rw [toFunction_of_starts hstarts, ← hq.1, ← q.facing_failed (items ++ more)]
    have hends' : ∀ item ∈ rest ++ more, ∀ u, item.reading = .ok u → u ≠ .eof :=
      fun item hitem => hends item (hjoined.suffix.subset hitem)
    have hlt : (rest ++ more).length < n := Nat.lt_of_lt_of_le (hjoined.length_lt rfl) (Nat.le_of_lt_succ hn)
    have hfuncs := Nat.lt_of_le_of_lt (q.length_funcs_facing_le (rest ++ more)) hlt
    have hbound := compileFor_enough n (n + 1) _ (s.compileFunction f).2 (q.ends_facing hends') hfuncs
      (Nat.lt_succ_of_lt hfuncs)
    rw [compileFor, readFunction_quiet (hjoined.nextFunction hread) ((q.facing_reports _).trans hq.2)]
    dsimp only
    rw [hbound, ih hends' (Nat.lt_succ_of_lt hlt), List.append_assoc]

/-! ## Texts elsewhere -/

section Elsewhere

variable {m : Pos → Pos} {base : Session}

theorem compileFunction_movedSince (hs : base.Since s) (ho : s.Orderly) (f : Function) :
    (s.movedSince base m).compileFunction (f.mapPos m) =
        ((s.compileFunction f).1, (s.compileFunction f).2.movedSince base m) ∧
      base.Since (s.compileFunction f).2 := by
  obtain ⟨heq, hafter⟩ := lowerFunction_uniform (m := m) hs ho.linked ho.idle f
  unfold compileFunction
  rw [heq]
  unfold after at hafter
  cases hf : lowerFunction f s with
  | ok body s' =>
    rw [hf] at hafter
    exact ⟨rfl, hafter⟩
  | error d s' =>
    rw [hf] at hafter
    exact ⟨congrArg (Prod.mk none) (record_movedSince hafter.journal [.report d]).symm, hafter.record _⟩

theorem readFunction_movedSince (hs : base.Since s) (r : State) :
    (s.movedSince base m).readFunction (r.mapPos m) =
        ((s.readFunction r).1.mapPos m, (s.readFunction r).2.1.mapPos m, (s.readFunction r).2.2.movedSince base m) ∧
      base.Since (s.readFunction r).2.2 := by
  have hoperators : (s.movedSince base m).operators = s.operators := rfl
  refine ⟨?_, hs.record _⟩
  simp only [readFunction, hoperators, State.nextFunction_mapPos, record_movedSince hs.journal, List.map_map]
  congr 2
  simp [State.mapPos, Function.comp_def, Event.mapPos]

/-- A text is compiled the same wherever it stands. -/
theorem compileFor_movedSince (n : Nat) (r : State) (hs : base.Since s) (ho : s.Orderly) :
    compileFor n (r.mapPos m) (s.movedSince base m) =
        ((compileFor n r s).1, (compileFor n r s).2.movedSince base m) ∧
      base.Since (compileFor n r s).2 := by
  induction n generalizing r s with
  | zero => exact ⟨rfl, hs⟩
  | succ n ih =>
    obtain ⟨hread, hsince⟩ := readFunction_movedSince (m := m) hs r
    have horderly : (s.readFunction r).2.2.Orderly := ⟨ho.linked, ho.idle⟩
    rw [compileFor, compileFor, hread]
    generalize s.readFunction r = read at hsince horderly
    obtain ⟨f | _ | _, r', s'⟩ := read
    · obtain ⟨hf, hafter⟩ := compileFunction_movedSince (m := m) hsince horderly f
      obtain ⟨hrest, hlast⟩ := ih r' hafter (horderly.compileFunction f)
      dsimp only [Attempt.mapPos]
      rw [hf]
      dsimp only
      rw [hrest]
      exact ⟨rfl, hlast⟩
    · exact ih r' hsince horderly
    · exact ⟨rfl, hsince⟩

/-- What is reported since `base` is reported elsewhere. -/
theorem diagnostics_movedSince (hs : base.Since s) :
    ∃ ds, s.diagnostics = base.diagnostics ++ ds ∧
      (s.movedSince base m).diagnostics = base.diagnostics ++ ds.map (·.mapPos m) := by
  obtain ⟨events, hevents⟩ := hs.journal
  refine ⟨events.filterMap Event.diagnostic?, ?_, ?_⟩
  · rw [diagnostics, ← hevents, List.filterMap_append]
    rfl
  · have hmoved (e : Event) : (e.mapPos m).diagnostic? = e.diagnostic?.map (·.mapPos m) := by
      cases e <;> rfl
    rw [diagnostics, movedSince, ← hevents]
    simp [diagnostics, List.filterMap_map, List.map_filterMap, hmoved]

end Elsewhere

/-! ## Two texts -/

/-- What spells no token at the start of a text is passed over with the first attempt. -/
theorem compileFor_skip {r : State} (h : r.token = .invalid) (n : Nat) (s : Session) :
    compileFor n r.skip s = compileFor n r s := by
  cases n with
  | zero => rfl
  | succ n => simp only [compileFor, readFunction, nextFunction_skip h]

/-- A text that starts with a token is compiled from there on. -/
theorem compileFor_ofScan {x : Scan} (h : faultOf? x.items = none) (n : Nat) (s : Session) :
    compileFor n (.ofScan x) s = compileFor n ((State.ofScan x).facing x.items) s := by
  rw [← compileFor_skip rfl, State.skip_ofScan h]

/-- A text with whose form nothing is wrong starts with a token. -/
theorem faultOf?_of_adds {x : Scan} {n : Nat} (hs : s.Reachable)
    (h : Adds (fun d => ¬ d.Syntactic) s (compileFor (n + 1) (.ofScan x) s).2) : faultOf? x.items = none :=
  faultOf?_of_quiet (reports_eq_nil hs rfl h)

theorem compileFor_eq_compileText {escapes : Bool} {b : String} (h : faultOf? (scan escapes b).items = none) {n : Nat}
    (hn : (scan escapes b).items.length < n) (s : Session) :
    compileFor n ((State.ofScan (scan escapes b)).facing (scan escapes b).items) s = s.compileText escapes b := by
  have hfuncs := State.length_funcs_facing_le (.ofScan (scan escapes b)) (scan escapes b).items
  have hends := State.ends_facing (.ofScan (scan escapes b)) (State.ends_ofScan escapes b).ahead
  unfold compileText
  dsimp only
  rw [compileFor_ofScan h]
  exact compileFor_enough _ _ _ s hends (Nat.lt_of_le_of_lt hfuncs hn) (Nat.lt_succ_of_le hfuncs)

/-- A text with whose form nothing is wrong holds functions only, which are compiled one by one. -/
theorem compiles_compileText (escapes : Bool) (a : String) (hs : s.Reachable)
    (h : Adds (fun d => ¬ d.Syntactic) s (s.compileText escapes a).2) :
    faultOf? (scan escapes a).items = none ∧
      Compiles (scan escapes a).items s (s.compileText escapes a).1 (s.compileText escapes a).2 := by
  have hfault : faultOf? (scan escapes a).items = none := faultOf?_of_adds hs h
  have hclean : Clean (scan escapes a).items := ⟨hfault, fun _ hitem _ ht => Scan.solid_of_mem hitem ht⟩
  refine ⟨hfault, ?_⟩
  rw [← compileFor_eq_compileText hfault (Nat.lt_succ_self _)] at h ⊢
  exact compiles_of_adds _ hclean hs (Nat.lt_succ_self _) ⟨rfl, rfl⟩ h

/-- Behind the first of two texts, a reader is in the state at the start of the second one, further down. -/
theorem facing_followedBy (x y : Scan) (k : Nat) :
    (State.ofScan (x.followedBy k y)).facing (y.items.map (·.down k)) =
      ((State.ofScan y).facing y.items).mapPos (·.down k) := by
  obtain ⟨_ | ⟨⟨p, _ | t⟩, items⟩, ending⟩ := y <;> rfl

/-- A text is compiled the same where it stands `k` lines further down, behind another one. -/
theorem compileFor_below (x : Scan) (k : Nat) {escapes : Bool} {b : String} {n : Nat} (ho : s.Orderly)
    (hfault : faultOf? (scan escapes b).items = none) (hn : (scan escapes b).items.length < n)
    (h : s.compileText escapes b = (bodies, t)) :
    compileFor n ((State.ofScan (x.followedBy k (scan escapes b))).facing ((scan escapes b).items.map (·.down k))) s =
        (bodies, t.movedSince s (·.down k)) ∧
      s.Since t := by
  have hmoved := compileFor_movedSince (m := (·.down k)) n
    ((State.ofScan (scan escapes b)).facing (scan escapes b).items) (.refl s) ho
  rwa [movedSince_self, compileFor_eq_compileText hfault hn, h, ← facing_followedBy x] at hmoved

/-- Two texts that are compiled one after the other come to the same as one text with a line break between them, where
nothing is wrong with the form of the first one and the second one starts with `FUNC`. What comes from the second text
stands that much further down. -/
theorem compileText_append {escapes : Bool} {a b : String} {s s₁ s₂ : Session} {bodies₁ bodies₂ : List Body}
    (hs : s.Reachable) (h₁ : s.compileText escapes a = (bodies₁, s₁)) (h₂ : s₁.compileText escapes b = (bodies₂, s₂))
    (hform : Adds (fun d => ¬ d.Syntactic) s s₁) (hfirst : first (scan escapes b).items = .keyword .FUNC) :
    s.compileText escapes (a ++ "\n" ++ b) =
        (bodies₁ ++ bodies₂, s₂.movedSince s₁ (·.down (a.toList.count '\n' + 1))) ∧
      s₁.Since s₂ ∧
      ∃ ds, s₂.diagnostics = s₁.diagnostics ++ ds ∧
        (s₂.movedSince s₁ (·.down (a.toList.count '\n' + 1))).diagnostics =
          s₁.diagnostics ++ ds.map (·.mapPos (·.down (a.toList.count '\n' + 1))) := by
  obtain ⟨hfault, hcompiles⟩ := compiles_compileText escapes a hs (by rwa [h₁])
  rw [h₁] at hcompiles
  dsimp only at hcompiles
  have hscan := scan_behind hcompiles.tokens b
  have hends := (State.ends_ofScan escapes (a ++ "\n" ++ b)).ahead
  generalize a.toList.count '\n' + 1 = k at hscan ⊢
  have hmore : first ((scan escapes b).items.map (·.down k)) = .keyword .FUNC := by
    rcases hb : (scan escapes b).items with _ | ⟨⟨p, _ | t⟩, items⟩ <;> rw [hb] at hfirst <;> exact hfirst
  have hlength : (scan escapes b).items.length <
      ((scan escapes a).items ++ (scan escapes b).items.map (·.down k)).length + 1 := by
    rw [List.length_append, List.length_map]
    omega
  obtain ⟨hsecond, hsince⟩ := compileFor_below (scan escapes a) k (hcompiles.reachable hs).orderly
    (faultOf?_of_first hfirst) hlength h₂
  refine ⟨?_, hsince, diagnostics_movedSince hsince⟩
  rw [hscan] at hends
  unfold compileText
  dsimp only
  rw [hscan, compileFor_ofScan (faultOf?_append hmore hfault)]
  refine (hcompiles.append hmore hends ⟨rfl, rfl⟩ (Nat.lt_add_one _)).trans ?_
  rw [hsecond]

/-- An operator, a call of a function that is not there yet, and a name that nothing declares. -/
def openingText : String := "FUNC binary | 5 (a, b) RETURN a + b\nFUNC f() RETURN g(1)\nFUNC k() RETURN z"

/-- The missing function, which uses the operator, and another unknown name. -/
def sequelText : String := "FUNC g(x) RETURN x | x\nFUNC h() RETURN y"

theorem compileText_append_sequel :
    Adds (fun d => ¬ d.Syntactic) (.initial "main" true) ((initial "main" true).compileText true openingText).2 ∧
      first (scan true sequelText).items = .keyword .FUNC ∧
      ((initial "main" true).compileText true (openingText ++ "\n" ++ sequelText)).1 =
        ((initial "main" true).compileText true openingText).1 ++
          (((initial "main" true).compileText true openingText).2.compileText true sequelText).1 ∧
      ((initial "main" true).compileText true (openingText ++ "\n" ++ sequelText)).2.diagnostics =
        [⟨.unknownVariable "z", ⟨3, 17⟩⟩, ⟨.unknownVariable "y", ⟨5, 17⟩⟩] := by
  have hform : Adds (fun d => ¬ d.Syntactic) (.initial "main" true)
      ((initial "main" true).compileText true openingText).2 := by
    refine ⟨[⟨.unknownVariable "z", ⟨3, 17⟩⟩], by decide +kernel, fun d hd => ?_⟩
    obtain rfl := List.mem_singleton.1 hd
    rintro (h | h) <;> cases h
  have hfirst : first (scan true sequelText).items = .keyword .FUNC := by decide +kernel
  have happend := (compileText_append (.initial "main" true) rfl rfl hform hfirst).1
  refine ⟨hform, hfirst, congrArg Prod.fst happend, ?_⟩
  rw [happend]
  decide +kernel

end Session

end Funclet
