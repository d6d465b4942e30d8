import Mathlib.Data.Prod.Lex
import Funclet.Proofs.Scanning.Segments

/-!
# The order of places

* `Pos.le_iff` : places are ordered by line, and by column within a line;
* `Pos.lt_after` : what stands behind some characters stands later than they do;
* `Reads.lead_lt` : whatever is wrong with a lexeme, it is reported of a character of that lexeme;
* `scan_ordered` : so the items of a text stand one behind the other, and the end of the text behind them all.
-/

namespace Funclet

namespace Pos

instance : LinearOrder Pos :=
  LinearOrder.lift' (fun p => toLex (p.line, p.col)) fun p q h => by
    obtain ⟨line, col⟩ := p
    obtain ⟨line', col'⟩ := q
    have hpair : (line, col) = (line', col') := toLex.injective h
    cases hpair
    rfl

theorem lt_iff (p q : Pos) : p < q ↔ p.line < q.line ∨ p.line = q.line ∧ p.col < q.col :=
  Prod.Lex.toLex_lt_toLex

theorem le_iff (p q : Pos) : p ≤ q ↔ p.line < q.line ∨ p.line = q.line ∧ p.col ≤ q.col :=
  Prod.Lex.toLex_le_toLex

theorem lt_next (p : Pos) (c : Char) : p < p.next c := by
  rw [lt_iff, next]
  split
  · exact .inl (Nat.lt_succ_self _)
  · exact .inr ⟨rfl, Nat.lt_succ_self _⟩

theorem le_after (p : Pos) (cs : List Char) : p ≤ p.after cs := by
  induction cs generalizing p with
  | nil => exact le_refl p
  | cons c cs ih => exact (lt_next p c).le.trans (ih (p.next c))

theorem lt_after (p : Pos) {cs : List Char} (h : cs ≠ []) : p < p.after cs := by
  obtain ⟨c, cs, rfl⟩ := List.exists_cons_of_ne_nil h
  exact (lt_next p c).trans_le (le_after _ cs)

end Pos

theorem placeBehind_le (before cs : List Char) : placeBehind before ≤ placeBehind (before ++ cs) := by
  rw [← placeBehind_after]
  exact Pos.le_after _ cs

theorem placeBehind_lt (before : List Char) {cs : List Char} (h : cs ≠ []) :
    placeBehind before < placeBehind (before ++ cs) := by
  rw [← placeBehind_after]
  exact Pos.lt_after _ h

namespace Scan

variable {escapes : Bool}

/-- What is reported of a lexeme is reported of a character of it. -/
theorem Reads.lead_lt {cs rest lead : List Char} {reading : Except LexError Token}
    (h : Reads escapes cs rest lead reading) : ∃ more, more ≠ [] ∧ cs = lead ++ more := by
  cases h with
  | @unknownEscape cs more _ e _ => exact ⟨'\\' :: e :: more, List.cons_ne_nil _ _, rfl⟩
  | assign => exact ⟨[':', '='], List.cons_ne_nil _ _, rfl⟩
  | _ => exact ⟨_, List.cons_ne_nil _ _, rfl⟩

/-- The items of a text stand one behind the other, and all of them in the text. -/
theorem Segmented.ordered {before cs : List Char} {items : List Item} (h : Segmented escapes before cs items) :
    (items.map Item.pos).Pairwise (· < ·) ∧
      ∀ item ∈ items, placeBehind before ≤ item.pos ∧ item.pos < placeBehind (before ++ cs) := by
  induction h with
  | done _ => exact ⟨.nil, fun _ hitem => by cases hitem⟩
  | @item before skipped lexeme rest lead reading items _ _ hread _ ih =>
    obtain ⟨more, hmore, rfl⟩ := hread.lead_lt
    have hlt : placeBehind (before ++ skipped ++ lead) < placeBehind (before ++ skipped ++ (lead ++ more)) := by
      rw [← List.append_assoc]
      exact placeBehind_lt _ hmore
    have hend : placeBehind (before ++ skipped ++ (lead ++ more)) ≤
        placeBehind (before ++ (skipped ++ (lead ++ more) ++ rest)) := by
      simpa only [List.append_assoc] using placeBehind_le (before ++ skipped ++ (lead ++ more)) rest
    have hstart : placeBehind before ≤ placeBehind (before ++ skipped ++ lead) := by
      simpa only [List.append_assoc] using placeBehind_le before (skipped ++ lead)
    refine ⟨List.pairwise_cons.2 ⟨fun p hp => ?_, ih.1⟩, fun item hitem => ?_⟩
    · obtain ⟨item, hitem, rfl⟩ := List.mem_map.1 hp
      exact hlt.trans_le (ih.2 item hitem).1
    · rcases List.mem_cons.1 hitem with rfl | hitem
      · exact ⟨hstart, hlt.trans_le hend⟩
      · obtain ⟨hfrom, hto⟩ := ih.2 item hitem
        refine ⟨(hstart.trans hlt.le).trans hfrom, ?_⟩
        simpa only [List.append_assoc] using hto

/-- The items of a text stand one behind the other, from its start on, and its end behind them all. -/
theorem scan_ordered (escapes : Bool) (source : String) :
    ((scan escapes source).items.map Item.pos ++ [(scan escapes source).ending]).Pairwise (· < ·) ∧
      ∀ p ∈ (scan escapes source).items.map Item.pos ++ [(scan escapes source).ending], Pos.start ≤ p := by
  obtain ⟨hsegmented, hending⟩ := segmented_scanFrom escapes [] source.toList
  obtain ⟨hsorted, hwithin⟩ := hsegmented.ordered
  refine ⟨List.pairwise_append.2 ⟨hsorted, List.pairwise_singleton _ _, fun p hp q hq => ?_⟩, fun p hp => ?_⟩
  · obtain ⟨item, hitem, rfl⟩ := List.mem_map.1 hp
    rw [List.mem_singleton.1 hq]
    exact hending ▸ (hwithin item hitem).2
  · rcases List.mem_append.1 hp with hp | hp
    · obtain ⟨item, hitem, rfl⟩ := List.mem_map.1 hp
      exact (hwithin item hitem).1
    · rw [List.mem_singleton.1 hp]
      exact hending ▸ placeBehind_le [] source.toList

end Scan

end Funclet
