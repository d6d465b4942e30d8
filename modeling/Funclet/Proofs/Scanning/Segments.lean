import Mathlib.Data.List.Induction
import Mathlib.Logic.Function.Iterate
import Funclet.Grammar.State
import Funclet.Proofs.Scanning.Lexemes

/-!
# A text is its gaps and its lexemes

* `placeBehind` : the line and column behind some characters, which is where positions count to (`after_start`);
* `Segmented` : a text is split into gaps and lexemes, and the items are what the lexemes are read as, each at its
  place;
* `scanFrom_step` : scanning takes a gap and a lexeme from the front of a text;
* `segmented_iff` : every text is split in just one way, and scanning finds it;
* `scan_segmented` : so nothing of a text gets lost. Behind the last item, a reader stays at the end of the text.
-/

namespace Funclet

/-- The line and the column of what follows the characters `before` of a text, both counted from one. -/
def placeBehind (before : List Char) : Pos where
  line := before.count '\n' + 1
  col := (before.reverse.takeWhile (· != '\n')).length + 1

theorem after_start (cs : List Char) : Pos.start.after cs = placeBehind cs := by
  induction cs using List.reverseRecOn with
  | nil => rfl
  | append_singleton cs c ih =>
    rw [Pos.after_append, ih, Pos.after_cons, Pos.after_nil, Pos.next]
    unfold placeBehind
    rw [List.reverse_concat, List.takeWhile_cons, List.count_append]
    by_cases hc : c = '\n'
    · simp [hc]
    · simp [hc]

theorem placeBehind_after (before cs : List Char) : (placeBehind before).after cs = placeBehind (before ++ cs) := by
  rw [← after_start, ← after_start, Pos.after_append]

namespace Scan

/-- Behind the characters `before`, a text is split into gaps and lexemes. The items are what the lexemes are read as,
each at the place of its lexeme or, for an unknown escape, of the backslash in it. -/
inductive Segmented (escapes : Bool) : List Char → List Char → List Item → Prop
  | done {before skipped : List Char} (hskipped : Skipped skipped []) : Segmented escapes before skipped []
  | item {before skipped lexeme rest lead : List Char} {reading : Except LexError Token} {items : List Item}
      (hskipped : Skipped skipped (lexeme ++ rest)) (hne : lexeme ≠ []) (hread : Reads escapes lexeme rest lead reading)
      (h : Segmented escapes (before ++ skipped ++ lexeme) rest items) :
      Segmented escapes before (skipped ++ lexeme ++ rest)
        (⟨placeBehind (before ++ skipped ++ lead), reading⟩ :: items)

variable {escapes : Bool}

/-- Scanning takes a gap and a lexeme from the front of a text. -/
theorem scanFrom_step {skipped lexeme rest lead : List Char} {reading : Except LexError Token}
    (hskipped : Skipped skipped (lexeme ++ rest)) (hne : lexeme ≠ []) (hread : Reads escapes lexeme rest lead reading)
    (before : List Char) :
    scanFrom escapes (placeBehind before) (skipped ++ lexeme ++ rest) =
      ⟨⟨placeBehind (before ++ skipped ++ lead), reading⟩ ::
          (scanFrom escapes (placeBehind (before ++ skipped ++ lexeme)) rest).items,
        (scanFrom escapes (placeBehind (before ++ skipped ++ lexeme)) rest).ending⟩ := by
  obtain ⟨c, tail, rfl⟩ := List.exists_cons_of_ne_nil hne
  obtain ⟨hgap, hlex⟩ := hread.lexeme_eq
  have hlen : gap false (skipped ++ (c :: tail ++ rest)) = skipped.length := by
    rw [hskipped.gap_eq, List.cons_append, hgap, Nat.add_zero]
  have hitem := hread.item_eq tail.length (placeBehind (before ++ skipped)) rest
  rw [placeBehind_after, List.cons_append] at hitem
  rw [List.append_assoc, scanFrom_eq, hlen, List.take_left, List.drop_left, List.cons_append, placeBehind_after]
  unfold lexemes
  dsimp only
  rw [hlex, hitem, List.take_left, List.drop_left, placeBehind_after]

theorem scanFrom_done {skipped : List Char} (hskipped : Skipped skipped []) (before : List Char) :
    scanFrom escapes (placeBehind before) skipped = ⟨[], placeBehind (before ++ skipped)⟩ := by
  have hlen := hskipped.gap_eq
  rw [List.append_nil] at hlen
  rw [scanFrom_eq, hlen, ← placeBehind_after]
  simp [gap, lexemes]

/-- Scanning splits a text, and ends behind it. -/
theorem segmented_scanFrom (escapes : Bool) (before cs : List Char) :
    Segmented escapes before cs (scanFrom escapes (placeBehind before) cs).items ∧
      (scanFrom escapes (placeBehind before) cs).ending = placeBehind (before ++ cs) := by
  induction hn : cs.length using Nat.strongRecOn generalizing before cs with
  | _ n ih =>
    obtain ⟨skipped, text, rfl, hskipped, hgap⟩ := exists_skipped cs
    obtain _ | ⟨c, text⟩ := text
    · rw [List.append_nil, scanFrom_done hskipped]
      exact ⟨.done hskipped, rfl⟩
    · obtain ⟨tail, rest, lead, reading, rfl, hread⟩ := exists_reads escapes hgap
      have hlt : rest.length < n := by
        rw [← hn]
        simp only [List.length_append, List.length_cons]
        omega
      obtain ⟨hrest, hending⟩ := ih _ hlt (before ++ skipped ++ c :: tail) rest rfl
      have hne : c :: tail ≠ [] := List.cons_ne_nil _ _
      rw [← List.cons_append] at hskipped ⊢
      rw [← List.append_assoc, scanFrom_step hskipped hne hread]
      refine ⟨.item hskipped hne hread hrest, ?_⟩
      rw [← List.append_assoc, ← List.append_assoc]
      exact hending

/-- A text is split in just one way. -/
theorem segmented_iff (escapes : Bool) (before cs : List Char) (items : List Item) :
    Segmented escapes before cs items ↔ items = (scanFrom escapes (placeBehind before) cs).items := by
  constructor
  · intro h
    induction h with
    | done hskipped => rw [scanFrom_done hskipped]
    | item hskipped hne hread _ ih => rw [scanFrom_step hskipped hne hread, ih]
  · rintro rfl
    exact (segmented_scanFrom escapes before cs).1

/-- Every lexeme has a character. -/
theorem Segmented.length_le {before cs : List Char} {items : List Item} (h : Segmented escapes before cs items) :
    items.length ≤ cs.length := by
  induction h with
  | done => exact Nat.zero_le _
  | item _ hne _ _ ih =>
    have hpos := List.length_pos_of_ne_nil hne
    simp only [List.length_append, List.length_cons]
    omega

theorem length_items_le (escapes : Bool) (source : String) : (scan escapes source).items.length ≤ source.length := by
  rw [← String.length_toList]
  exact (segmented_scanFrom escapes [] source.toList).1.length_le

end Scan

/-! ## Readers -/

namespace Grammar.State

theorem ahead_iterate (s : Scan) (k : Nat) : (next^[k] (ofScan s)).ahead = s.items.drop k := by
  induction k with
  | zero => rfl
  | succ k ih =>
    rw [Function.iterate_succ_apply', ← List.tail_drop, ← ih]
    rcases next^[k] (ofScan s) with ⟨token, pos, _ | ⟨⟨p, _ | t⟩, items⟩, ending, failed, reports⟩ <;> rfl

theorem ending_iterate (s : Scan) (k : Nat) : (next^[k] (ofScan s)).ending = s.ending := by
  induction k with
  | zero => rfl
  | succ k ih =>
    rw [Function.iterate_succ_apply', ← ih]
    rcases next^[k] (ofScan s) with ⟨token, pos, _ | ⟨⟨p, _ | t⟩, items⟩, ending, failed, reports⟩ <;> rfl

/-- Behind the last item, a reader stays at the end of the text. -/
theorem eof_iterate (s : Scan) (k : Nat) :
    (next^[s.items.length + 1 + k] (ofScan s)).token = .eof ∧
      (next^[s.items.length + 1 + k] (ofScan s)).pos = s.ending := by
  have hahead := ahead_iterate s (s.items.length + k)
  rw [List.drop_eq_nil_of_le (Nat.le_add_right _ _)] at hahead
  have hending := ending_iterate s (s.items.length + k)
  rw [Nat.add_right_comm, Function.iterate_succ_apply', next, hahead]
  exact ⟨rfl, hending⟩

end Grammar.State

/-- Nothing of a text gets lost, and every position is right: the items of a text are what its lexemes are read as, with
nothing but blanks and comments between them, and no other items are. The end is behind the last character. A reader
comes to one item after the other, and then to the end again and again. -/
theorem scan_segmented (escapes : Bool) (source : String) :
    (∀ items, Scan.Segmented escapes [] source.toList items ↔ items = (scan escapes source).items) ∧
      (scan escapes source).ending = placeBehind source.toList ∧
      (∀ k, (Grammar.State.next^[k] (.ofScan (scan escapes source))).ahead = (scan escapes source).items.drop k) ∧
      ∀ k, (Grammar.State.next^[(scan escapes source).items.length + 1 + k] (.ofScan (scan escapes source))).token =
          .eof ∧
        (Grammar.State.next^[(scan escapes source).items.length + 1 + k] (.ofScan (scan escapes source))).pos =
          placeBehind source.toList := by
  have hending : (scan escapes source).ending = placeBehind source.toList :=
    (Scan.segmented_scanFrom escapes [] source.toList).2
  refine ⟨Scan.segmented_iff escapes [] source.toList, hending, Grammar.State.ahead_iterate _, fun k => ?_⟩
  rw [← hending]
  exact Grammar.State.eof_iterate _ k

end Funclet
