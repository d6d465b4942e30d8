import Mathlib.Logic.Relation
import Funclet.Proofs.Reading.Starts

/-!
# What reading can do to a state

* `Move` : one change of a reader's state. It moves on, or reports, and what it reports is lexical or syntactic;
* `Travels step` : whether or not `step` fails, it makes only such moves, and fails with such a diagnostic;
* `Behaves.travels`, `travels_function` : so it is with all that a reader can do;
* `Moves.spoiled`, `Moves.reports`, `Moves.ahead` : what many changes have in common.
-/

namespace Funclet

/-- The error is one of the text, and not one of what it means. -/
def Diagnostic.Syntactic (d : Diagnostic) : Prop := d.stage = .lexer ∨ d.stage = .parser

namespace Grammar

inductive Move : State → State → Prop
  | next (s : State) : Move s s.next
  | report (s : State) {d : Diagnostic} (h : d.Syntactic) : Move s (s.report d)
  /-- An error in the function being read is passed over. -/
  | spoil (s : State) {d : Diagnostic} (h : d.Syntactic) : Move s { s.report d with failed := true }

abbrev Moves : State → State → Prop := Relation.ReflTransGen Move

/-- What came of a step came of moves from `s`, and an error is a syntactic one. -/
def Arrives {α : Type} (s : State) : EStateM.Result Diagnostic State α → Prop
  | .ok _ s' => Moves s s'
  | .error d s' => Moves s s' ∧ d.Syntactic

/-- Whether or not it fails, `step` only moves on and reports. -/
def Travels {α : Type} (step : Read α) : Prop := ∀ s, Arrives s (step s)

/-! ## Many moves -/

theorem State.syntactic_fault? {s : State} {d : Diagnostic} (h : s.fault? = some d) : d.Syntactic := by
  unfold State.fault? at h
  split at h
  · cases h
    exact Or.inl rfl
  · cases h

/-- An error in the function being read has been passed over and reported. -/
structure State.Spoiled (s : State) : Prop where
  failed : s.failed = true
  reports : s.reports ≠ []

theorem Move.spoiled {s s' : State} (h : Move s s') (hs : s.Spoiled) : s'.Spoiled := by
  cases h with
  | next =>
    refine ⟨s.next_failed.trans hs.failed, ?_⟩
    rw [State.reports_next]
    exact hs.reports
  | report _ => exact ⟨hs.failed, List.append_ne_nil_of_left_ne_nil hs.reports _⟩
  | spoil _ => exact ⟨rfl, List.append_ne_nil_of_left_ne_nil hs.reports _⟩

theorem Move.reports {s s' : State} (h : Move s s') :
    ∃ ds, s'.reports = s.reports ++ ds ∧ ∀ d ∈ ds, d.Syntactic := by
  cases h with
  | next => exact ⟨[], by rw [State.reports_next, List.append_nil], fun _ hd => by cases hd⟩
  | report hd => exact ⟨[_], rfl, fun e he => List.mem_singleton.1 he ▸ hd⟩
  | spoil hd => exact ⟨[_], rfl, fun e he => List.mem_singleton.1 he ▸ hd⟩

namespace Moves

variable {s s' : State}

theorem spoiled (h : Moves s s') (hs : s.Spoiled) : s'.Spoiled := by
  induction h with
  | refl => exact hs
  | tail _ hmove ih => exact hmove.spoiled ih

theorem ends (h : Moves s s') (hs : s.Ends) : s'.Ends := by
  induction h with
  | refl => exact hs
  | tail _ hmove ih =>
    cases hmove with
    | next => exact ih.next
    | report _ => exact ⟨ih.ahead, ih.token⟩
    | spoil _ => exact ⟨ih.ahead, ih.token⟩

/-- Nothing that has been reported is taken back, and all that is added is syntactic. -/
theorem reports (h : Moves s s') : ∃ ds, s'.reports = s.reports ++ ds ∧ ∀ d ∈ ds, d.Syntactic := by
  induction h with
  | refl => exact ⟨[], (List.append_nil _).symm, fun _ hd => by cases hd⟩
  | tail _ hmove ih =>
    obtain ⟨ds, hds, hsyn⟩ := ih
    obtain ⟨es, hes, hsyn'⟩ := hmove.reports
    refine ⟨ds ++ es, by rw [hes, hds, List.append_assoc], fun d hd => ?_⟩
    rcases List.mem_append.1 hd with hd | hd
    · exact hsyn d hd
    · exact hsyn' d hd

theorem skip (s : State) : Moves s s.skip := by
  unfold State.skip
  split
  · exact .single (.next s)
  · rename_i hd
    exact (Relation.ReflTransGen.single (.next s)).tail (.report _ (State.syntactic_fault? hd))

theorem skipFor (stop : Token → Bool) (n : Nat) (s : State) : Moves s (State.skipFor stop n s) := by
  induction n generalizing s with
  | zero =>
    unfold State.skipFor
    split
    · exact .refl
    · exact skip s
  | succ n ih =>
    unfold State.skipFor
    split
    · exact .refl
    · exact (skip s).trans (ih s.skip)

theorem toFunction (s : State) : Moves s s.toFunction := by
  have hskip : Moves s (s.skipUntil (· ≠ .invalid)) := skipFor _ _ s
  unfold State.toFunction
  dsimp only
  split
  · exact hskip
  · exact (hskip.tail (.report _ (Or.inr rfl))).trans (skipFor _ _ _)

end Moves

/-! ## Steps -/

/-- All that a reader can do is to move, and all that it is about to report is syntactic. -/
theorem Change.moves {r r' : Reader} (h : Change r r') (hr : ∀ d ∈ r.error, d.Syntactic) :
    Moves r.state r'.state ∧ ∀ d ∈ r'.error, d.Syntactic := by
  have hnone {P : Diagnostic → Prop} : ∀ d ∈ (none : Option Diagnostic), P d := fun _ hd => by cases hd
  cases h with
  | @advance s _ _ => exact ⟨.single (.next s), hnone⟩
  | @stumble s _ _ h => exact ⟨.single (.next s), fun e he => Option.some.inj he ▸ State.syntactic_fault? h⟩
  | fail h => exact ⟨.refl, fun e he => Option.some.inj he ▸ .inr h⟩
  | @stray s =>
    refine ⟨.single (.next s), fun e he => Option.some.inj he ▸ ?_⟩
    cases hd : s.fault? with
    | none => exact .inr rfl
    | some d => exact State.syntactic_fault? hd
  | @reject s _ _ => exact ⟨.single (.next s), fun e he => Option.some.inj he ▸ .inr rfl⟩
  | @report s _ => exact ⟨.single (.report s (hr _ rfl)), hnone⟩
  | @spoil s _ => exact ⟨.single (.spoil s (hr _ rfl)), hnone⟩

theorem Changes.moves {r r' : Reader} (h : Changes r r') (hr : ∀ d ∈ r.error, d.Syntactic) :
    Moves r.state r'.state ∧ ∀ d ∈ r'.error, d.Syntactic := by
  induction h with
  | refl => exact ⟨.refl, hr⟩
  | tail _ hchange ih => exact ⟨ih.1.trans (hchange.moves ih.2).1, (hchange.moves ih.2).2⟩

theorem Arrives.of_changes {α : Type} {s : State} {x : EStateM.Result Diagnostic State α}
    (h : Moves s (Reader.of x).state ∧ ∀ d ∈ (Reader.of x).error, d.Syntactic) : Arrives s x := by
  cases x with
  | ok a s' => exact h.1
  | error d s' => exact ⟨h.1, h.2 d rfl⟩

theorem Behaves.travels {α : Type} {x : Read α} (h : Behaves none x) : Travels x :=
  fun s => .of_changes ((h s).moves fun _ hd => by cases hd)

theorem travels_function (ops : Operators) : Travels (function ops) := by
  intro s
  obtain ⟨hmoves, hsyn⟩ := (changes_function ops s).moves fun _ hd => State.syntactic_fault? hd
  exact .of_changes ⟨.head (.next s) hmoves, hsyn⟩

end Grammar

end Funclet
