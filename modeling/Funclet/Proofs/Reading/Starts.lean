import Mathlib.Data.List.Perm.Basic
import Funclet.Proofs.Reading.Changes
import Funclet.Proofs.Reading.Names

/-!
# Where functions start

* `funcs` : every `FUNC` of a text, with what is reported of it where a statement has to start;
* `State.Attempts`, `State.attempts` : all attempts to read a function, with the places where they start;
* `Accounted`, `Change.accounted` : nothing that a reader can do passes over a `FUNC` without a report;
* `nextFunction_funcs` : one attempt takes the next `FUNC`, and loses only such as it reports;
* `attempts_perm_funcs` : so it is with all attempts. A `FUNC` is lost where a statement has to start outside of a
  block: behind a signature, a `VAR` list, `THEN`, `ELSE` or `DO`.
-/

namespace Funclet

theorem Scan.lexeme_ne_eof {escapes : Bool} {c : Char} {cs : List Char} :
    (lexeme escapes c cs).reading ≠ .ok .eof := by
  have hword (word : List Char) : wordToken word ≠ .eof := by
    unfold wordToken
    split <;> simp
  unfold lexeme
  grind

namespace Grammar

/-! ## The marks of a text -/

/-- A `FUNC` of a text: where it stands, and what is reported if it is taken for a statement. -/
structure Mark where
  pos : Pos
  stray : Diagnostic

def faultOf? : List Item → Option Diagnostic
  | ⟨p, .error e⟩ :: _ => some ⟨.lexical e, p⟩
  | _ => none

def funcs : List Item → List Mark
  | [] => []
  | ⟨p, reading⟩ :: items =>
    match reading with
    | .ok (.keyword .FUNC) => ⟨p, (faultOf? items).getD ⟨.notStatement (.keyword .FUNC), p⟩⟩ :: funcs items
    | _ => funcs items

namespace State

def funcs (s : State) : List Mark := Grammar.funcs (⟨s.pos, .ok s.token⟩ :: s.ahead)

/-- The end of the text is no token before the last. -/
structure Ends (s : State) : Prop where
  ahead : ∀ item ∈ s.ahead, ∀ t, item.reading = .ok t → t ≠ .eof
  token : s.token = .eof → s.ahead = []

/-- The attempts to read functions, where `tables` are the operators in force for one after the other: the place where
each of them starts, and what comes of it. There is no answer where `n` calls do not reach the end of the text. -/
def attempts (tables : Nat → Operators) : Nat → State → Option (List (Pos × Attempt) × State)
  | 0, _ => none
  | n + 1, s =>
    match s.nextFunction (tables 0) with
    | (.ended, s') => some ([], s')
    | (a, s') => (attempts (fun i => tables (i + 1)) n s').map fun r => ((s.toFunction.pos, a) :: r.1, r.2)

theorem funcs_of_ne {s : State} (h : s.token ≠ .keyword .FUNC) : s.funcs = Grammar.funcs s.ahead := by
  rw [funcs, Grammar.funcs]
  exact fun heq => h (Except.ok.inj heq)

theorem funcs_of_eq {s : State} (h : s.token = .keyword .FUNC) :
    s.funcs = ⟨s.pos, s.fault?.getD ⟨.notStatement s.token, s.pos⟩⟩ :: Grammar.funcs s.ahead := by
  unfold funcs
  rw [h]
  rfl

theorem funcs_next (s : State) : s.next.funcs = Grammar.funcs s.ahead := by
  unfold next
  split
  · rename_i heq
    rw [heq]
    rfl
  · rename_i p t items heq
    rw [heq]
    rfl
  · rename_i p e items heq
    rw [heq]
    rfl

theorem Ends.next {s : State} (h : s.Ends) : s.next.Ends := by
  unfold State.next
  split
  · exact ⟨h.ahead, fun _ => ‹_›⟩
  · rename_i p t items heq
    refine ⟨fun item hitem => h.ahead item ?_, fun ht => absurd ht (h.ahead ⟨p, .ok t⟩ ?_ t rfl)⟩
    · rw [heq]
      exact List.mem_cons_of_mem _ hitem
    · rw [heq]
      exact List.mem_cons_self
  · rename_i p e items heq
    refine ⟨fun item hitem => h.ahead item ?_, fun ht => nomatch ht⟩
    rw [heq]
    exact List.mem_cons_of_mem _ hitem

end State

/-! ## Changes that lose no mark in silence -/

/-- From `s` to `s'`, no mark has been passed over. -/
structure Passed (s s' : State) : Prop where
  ends : s.Ends → s'.Ends
  reports : ∀ d ∈ s.reports, d ∈ s'.reports
  funcs : s'.funcs = s.funcs

namespace Passed

variable {s₀ s s' : State}

theorem refl (s : State) : Passed s s := ⟨id, fun _ hd => hd, rfl⟩

theorem trans (h : Passed s₀ s) (h' : Passed s s') : Passed s₀ s' :=
  ⟨h'.ends ∘ h.ends, fun d hd => h'.reports d (h.reports d hd), h'.funcs.trans h.funcs⟩

theorem report (h : Passed s s') (d : Diagnostic) : Passed s (s'.report d) :=
  ⟨fun hs => ⟨(h.ends hs).ahead, (h.ends hs).token⟩, fun e he => List.mem_append_left _ (h.reports e he), h.funcs⟩

theorem next (h : s.token ≠ .keyword .FUNC) : Passed s s.next := by
  refine ⟨State.Ends.next, fun d hd => ?_, ?_⟩
  · rw [State.reports_next]
    exact hd
  · rw [State.funcs_next, State.funcs_of_ne h]

theorem skip (h : s.token ≠ .keyword .FUNC) : Passed s s.skip := by
  unfold State.skip
  split
  · exact next h
  · exact (next h).report _

theorem skipFor {stop : Token → Bool} (hstop : stop (.keyword .FUNC) = true) (n : Nat) (s : State) :
    Passed s (State.skipFor stop n s) := by
  have hne {s : State} (h : ¬stop s.token = true) : s.token ≠ .keyword .FUNC := fun heq => h (heq ▸ hstop)
  induction n generalizing s with
  | zero =>
    unfold State.skipFor
    split
    · exact refl s
    · exact skip (hne ‹_›)
  | succ n ih =>
    unfold State.skipFor
    split
    · exact refl s
    · exact (skip (hne ‹_›)).trans (ih s.skip)

theorem toFunction (s : State) : Passed s s.toFunction := by
  have hskip : Passed s (s.skipUntil (· ≠ .invalid)) := skipFor (by decide) _ s
  unfold State.toFunction
  dsimp only
  split
  · exact hskip
  · exact (hskip.report _).trans (skipFor rfl _ _)

end Passed

/-- From `s` to `s'`, marks have been passed over only where they are reported, or are about to be, as one of `ds`. -/
structure Accounted (s s' : State) (ds : List Diagnostic) : Prop where
  ends : s.Ends → s'.Ends
  reports : ∀ d ∈ s.reports, d ∈ s'.reports
  marks : ∃ lost, s.funcs = lost ++ s'.funcs ∧ ∀ m ∈ lost, m.stray ∈ s'.reports ++ ds

namespace Accounted

variable {s₀ s s' : State} {ds : List Diagnostic}

theorem of_passed (h : Passed s s') : Accounted s s' [] :=
  ⟨h.ends, h.reports, [], h.funcs.symm, fun _ hm => nomatch hm⟩

theorem trans (h : Accounted s₀ s []) (h' : Accounted s s' ds) : Accounted s₀ s' ds := by
  obtain ⟨lost, heq, hlost⟩ := h.marks
  obtain ⟨lost', heq', hlost'⟩ := h'.marks
  refine ⟨h'.ends ∘ h.ends, fun d hd => h'.reports d (h.reports d hd), lost ++ lost', ?_, fun m hm => ?_⟩
  · rw [heq, heq', List.append_assoc]
  · rcases List.mem_append.1 hm with hm | hm
    · have hd := hlost m hm
      rw [List.append_nil] at hd
      exact List.mem_append_left _ (h'.reports _ hd)
    · exact hlost' m hm

theorem weaken (h : Accounted s s' []) (ds : List Diagnostic) : Accounted s s' ds := by
  obtain ⟨lost, heq, hlost⟩ := h.marks
  refine ⟨h.ends, h.reports, lost, heq, fun m hm => ?_⟩
  have hd := hlost m hm
  rw [List.append_nil] at hd
  exact List.mem_append_left _ hd

/-- What was about to be reported has been. -/
theorem report {d : Diagnostic} (h : Accounted s s' [d]) (failed : Bool) :
    Accounted s { s'.report d with failed } [] := by
  obtain ⟨lost, heq, hlost⟩ := h.marks
  refine ⟨fun hs => ⟨(h.ends hs).ahead, (h.ends hs).token⟩, fun e he => List.mem_append_left _ (h.reports e he),
    lost, heq, fun m hm => ?_⟩
  rw [List.append_nil]
  exact hlost m hm

/-- A `FUNC` that is passed over is accounted for by what is wrong with it. -/
theorem next_stray (s : State) : Accounted s s.next [s.fault?.getD ⟨.notStatement s.token, s.pos⟩] := by
  by_cases h : s.token = .keyword .FUNC
  · refine ⟨State.Ends.next, fun d hd => ?_, [⟨s.pos, s.fault?.getD ⟨.notStatement s.token, s.pos⟩⟩], ?_,
      fun m hm => ?_⟩
    · rw [State.reports_next]
      exact hd
    · rw [State.funcs_next, State.funcs_of_eq h]
      rfl
    · rw [List.mem_singleton.1 hm]
      exact List.mem_append_right _ (List.mem_singleton.2 rfl)
  · exact (of_passed (.next h)).weaken _

end Accounted

/-- What came of a step accounts for the marks since `s`. An error is about to be reported. -/
def Accounts {α : Type} (s : State) : EStateM.Result Diagnostic State α → Prop
  | .ok _ s' => Accounted s s' []
  | .error d s' => Accounted s s' [d]

/-- All that a reader can do accounts for the marks. -/
theorem Change.accounted {s : State} {r r' : Reader} (h : Change r r') (hr : Accounted s r.state r.error.toList) :
    Accounted s r'.state r'.error.toList := by
  have hne {s' : State} (ht : startsFunction s'.token = false) : s'.token ≠ .keyword .FUNC := by
    intro heq
    rw [heq] at ht
    cases ht
  cases h with
  | advance ht _ => exact hr.trans (.of_passed (.next (hne ht)))
  | stumble ht _ => exact (hr.trans (.of_passed (.next (hne ht)))).weaken _
  | fail _ => exact hr.weaken _
  | stray => exact hr.trans (.next_stray _)
  | reject ht => exact (hr.trans (.of_passed (.next (by simp [ht])))).weaken _
  | @report s' _ => exact hr.report s'.failed
  | spoil => exact hr.report true

theorem Changes.accounted {s : State} {r r' : Reader} (h : Changes r r') (hr : Accounted s r.state r.error.toList) :
    Accounted s r'.state r'.error.toList := by
  induction h with
  | refl => exact hr
  | tail _ hchange ih => exact hchange.accounted ih

/-- Behind its own `FUNC`, the reading of a function accounts for the marks. -/
theorem accounts_function (ops : Operators) (s : State) : Accounts s.next (function ops s) := by
  have hread := (changes_function ops s).accounted ((Accounted.of_passed (.refl s.next)).weaken _)
  cases h : function ops s with
  | ok f s' =>
    rw [h] at hread
    exact hread
  | error d s' =>
    rw [h] at hread
    exact hread

/-! ## Attempts -/

namespace State

theorem skip_ahead (s : State) : s.skip.ahead = s.ahead.tail := by
  unfold skip
  split <;> (try unfold report) <;> unfold next <;> split <;> simp_all

/-- Behind the last item stands the end of the text, so a search for it or something before it succeeds. -/
theorem skipUntil_token {stop : Token → Bool} (hstop : stop .eof = true) (s : State) :
    stop (s.skipUntil stop).token = true := by
  have hfor (n : Nat) (s : State) (hn : s.ahead.length ≤ n) : stop (skipFor stop n s).token = true := by
    induction n generalizing s with
    | zero =>
      have hnil : s.ahead = [] := List.eq_nil_of_length_eq_zero (Nat.le_zero.1 hn)
      unfold skipFor
      split
      · assumption
      · simpa [skip, fault?, next, hnil] using hstop
    | succ n ih =>
      unfold skipFor
      split
      · assumption
      · refine ih _ ?_
        rw [skip_ahead, List.length_tail]
        omega
  exact hfor _ s (Nat.le_refl _)

theorem toFunction_token (s : State) : s.toFunction.token = .eof ∨ s.toFunction.token = .keyword .FUNC := by
  have hstarts {t : Token} (h : startsFunction t = true) : t = .eof ∨ t = .keyword .FUNC := by
    unfold startsFunction at h
    split at h <;> simp_all
  unfold toFunction
  dsimp only
  split
  · exact hstarts ‹_›
  · exact hstarts (skipUntil_token rfl _)

/-- One attempt takes the next `FUNC`, and loses only such as it reports. -/
theorem nextFunction_funcs {s : State} (hs : s.Ends) (ops : Operators) :
    (s.nextFunction ops).1 = .ended ∧ s.funcs = [] ∧ (∀ d ∈ s.reports, d ∈ (s.nextFunction ops).2.reports) ∨
      (s.nextFunction ops).1 ≠ .ended ∧ ∃ s₁ : State, s₁.pos = s.toFunction.pos ∧ s₁.token = .keyword .FUNC ∧
        Passed s s₁ ∧ Accounted s₁.next (s.nextFunction ops).2 [] := by
  have hto := Passed.toFunction s
  unfold nextFunction
  dsimp only
  split
  · rename_i heof
    left
    refine ⟨rfl, ?_, hto.reports⟩
    rw [← hto.funcs, funcs_of_ne (by simp [heof]), (hto.ends hs).token heof]
    rfl
  · rename_i heof
    right
    have hfunc := s.toFunction_token.resolve_left heof
    have hread := accounts_function ops { s.toFunction with failed := false }
    have hpassed : Passed s { s.toFunction with failed := false } :=
      ⟨fun hs => ⟨(hto.ends hs).ahead, (hto.ends hs).token⟩, hto.reports, hto.funcs⟩
    cases hres : function ops { s.toFunction with failed := false } with
    | ok f s' =>
      rw [hres] at hread
      refine ⟨?_, { s.toFunction with failed := false }, rfl, hfunc, hpassed, hread⟩
      dsimp only
      split <;> simp
    | error d s' =>
      rw [hres] at hread
      have hskip : Passed (s'.report d) ((s'.report d).skipUntil startsFunction) := .skipFor rfl _ _
      refine ⟨?_, { s.toFunction with failed := false }, rfl, hfunc, hpassed, ?_⟩
      · simp
      · exact (hread.report s'.failed).trans (.of_passed hskip)

theorem attempts_ended {tables : Nat → Operators} {s : State} (h : (s.nextFunction (tables 0)).1 = .ended) (n : Nat) :
    s.attempts tables (n + 1) = some ([], (s.nextFunction (tables 0)).2) := by
  unfold attempts
  split
  · simp_all
  · rename_i heq
    exact absurd (heq ▸ h) ‹_›

theorem attempts_more {tables : Nat → Operators} {s : State} (h : (s.nextFunction (tables 0)).1 ≠ .ended) (n : Nat) :
    s.attempts tables (n + 1) =
      ((s.nextFunction (tables 0)).2.attempts (fun i => tables (i + 1)) n).map fun r =>
        ((s.toFunction.pos, (s.nextFunction (tables 0)).1) :: r.1, r.2) := by
  rw [attempts]
  split
  · simp_all
  · simp_all

/-- All attempts together take the marks of a text in order, and lose only such as they report. -/
theorem attempts_funcs (tables : Nat → Operators) {n : Nat} {s : State} (hs : s.Ends) (hn : s.funcs.length < n) :
    ∃ attempts s', s.attempts tables n = some (attempts, s') ∧ (∀ d ∈ s.reports, d ∈ s'.reports) ∧
      ∃ taken lost : List Mark, taken.map Mark.pos = attempts.map Prod.fst ∧ taken.Sublist s.funcs ∧
        (taken ++ lost).Perm s.funcs ∧ ∀ m ∈ lost, m.stray ∈ s'.reports := by
  induction n generalizing tables s with
  | zero => exact absurd hn (Nat.not_lt_zero _)
  | succ n ih =>
    rcases nextFunction_funcs hs (tables 0) with ⟨hended, hnil, hkept⟩ | ⟨hmore, s₁, hpos, hfunc, hpassed, hacc⟩
    · exact ⟨[], _, attempts_ended hended n, hkept, [], [], rfl, List.nil_sublist _, by rw [hnil]; rfl,
        fun _ hm => nomatch hm⟩
    · obtain ⟨lost, heq, hlost⟩ := hacc.marks
      rw [List.append_nil] at hlost
      obtain ⟨m₁, hm₁, hsplit⟩ : ∃ m₁ : Mark, m₁.pos = s.toFunction.pos ∧
          s.funcs = m₁ :: (lost ++ (s.nextFunction (tables 0)).2.funcs) := by
        refine ⟨⟨s₁.pos, s₁.fault?.getD ⟨.notStatement s₁.token, s₁.pos⟩⟩, hpos, ?_⟩
        rw [← heq, funcs_next, ← hpassed.funcs, funcs_of_eq hfunc]
      have hends : (s.nextFunction (tables 0)).2.Ends := hacc.ends (hpassed.ends hs).next
      have hfewer : (s.nextFunction (tables 0)).2.funcs.length < n := by
        rw [hsplit, List.length_cons, List.length_append] at hn
        omega
      obtain ⟨attempts, s', hrest, hkept, taken, lost', hmap, hsub, hperm, hlost'⟩ :=
        ih (fun i => tables (i + 1)) hends hfewer
      refine ⟨(s.toFunction.pos, (s.nextFunction (tables 0)).1) :: attempts, s', ?_,
        fun d hd => hkept d (hacc.reports d ?_), m₁ :: taken, lost ++ lost', ?_, ?_, ?_, ?_⟩
      · rw [attempts_more hmore, hrest]
        rfl
      · rw [reports_next]
        exact hpassed.reports d hd
      · rw [List.map_cons, List.map_cons, hmap, hm₁]
      · rw [hsplit]
        exact (hsub.trans (List.sublist_append_right _ _)).cons_cons _
      · rw [hsplit, List.cons_append]
        refine List.Perm.cons _ ?_
        exact (List.perm_append_comm_assoc taken lost lost').trans (hperm.append_left lost)
      · intro m hm
        rcases List.mem_append.1 hm with hm | hm
        · exact hkept _ (hlost m hm)
        · exact hlost' m hm

theorem ends_ofScan (escapes : Bool) (source : String) : (ofScan (scan escapes source)).Ends := by
  refine ⟨fun item hitem t ht => ?_, fun h => nomatch h⟩
  obtain ⟨c, rest, hread⟩ := Scan.exists_lexeme_of_mem hitem ht
  rintro rfl
  exact Scan.lexeme_ne_eof hread

end State

/-- Reading on and on comes to an end. Every attempt starts at a `FUNC` of its own, in their order. Each `FUNC` that
starts none has been reported as no statement, or what is wrong right behind it has been. -/
theorem attempts_perm_funcs (tables : Nat → Operators) (escapes : Bool) (source : String) :
    ∃ n attempts s, (State.ofScan (scan escapes source)).attempts tables n = some (attempts, s) ∧
      ∃ taken lost : List Mark, taken.map Mark.pos = attempts.map Prod.fst ∧
        taken.Sublist (funcs (scan escapes source).items) ∧
        (taken ++ lost).Perm (funcs (scan escapes source).items) ∧ ∀ m ∈ lost, m.stray ∈ s.reports := by
  obtain ⟨attempts, s, hrun, -, hmarks⟩ :=
    State.attempts_funcs tables (State.ends_ofScan escapes source) (Nat.lt_succ_self _)
  exact ⟨_, attempts, s, hrun, hmarks⟩

/-- A signature without a body hides the function behind it. -/
theorem attempts_hidden_func :
    ((State.ofScan (scan true "FUNC a() FUNC b() RETURN 2")).attempts (fun _ => .initial) 2).map (·.1.length) = some 1 ∧
      (funcs (scan true "FUNC a() FUNC b() RETURN 2").items).length = 2 := by
  decide +kernel

end Grammar

end Funclet
