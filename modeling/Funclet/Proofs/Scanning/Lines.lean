import Mathlib.Data.List.Basic
import Funclet.Token.Scan

/-!
# Scanning line by line

* `Scan.followedBy s k t` : the items of `s`, and then those of `t` from `k` lines further down;
* `scanFrom_down` : where a text starts matters to the positions of its items only;
* `gap_newline`, `lexeme_newline` : a gap, or a lexeme, behind which a line ends is the one at the end of a text;
* `Scan.Dangles` : the exception. The rest of a text literal with an unknown escape is passed over, and so is any
  character behind a backslash there, even the end of the line;
* `scan_lines_iff` : the lines of a text are scanned one by one, unless one of them dangles.
-/

namespace Funclet

/-! ## Positions further down -/

def Pos.down (p : Pos) (k : Nat) : Pos := ⟨p.line + k, p.col⟩

theorem Pos.next_down (p : Pos) (k : Nat) (c : Char) : (p.down k).next c = (p.next c).down k := by
  unfold next down
  split
  · simp only [Pos.mk.injEq, and_true]
    omega
  · rfl

theorem Pos.after_down (p : Pos) (k : Nat) (cs : List Char) : (p.down k).after cs = (p.after cs).down k := by
  induction cs generalizing p with
  | nil => rfl
  | cons c cs ih => rw [after_cons, after_cons, next_down, ih]

/-- Behind a newline, a text goes on in the first column. -/
theorem Pos.after_newline (p : Pos) (cs : List Char) :
    (p.after cs).next '\n' = ⟨p.line + cs.count '\n' + 1, 1⟩ := by
  induction cs generalizing p with
  | nil => rfl
  | cons c cs ih =>
    rw [after_cons, ih, List.count_cons]
    unfold next
    by_cases hc : c = '\n'
    · simp only [hc, if_true, beq_self_eq_true]
      congr 1
      omega
    · simp [hc]

def Item.down (i : Item) (k : Nat) : Item := ⟨i.pos.down k, i.reading⟩

/-- The items of a text, and then those of a text that starts `k` lines further down. -/
def Scan.followedBy (s : Scan) (k : Nat) (t : Scan) : Scan :=
  ⟨s.items ++ t.items.map (·.down k), t.ending.down k⟩

namespace Scan

theorem item_down (l : Lexeme) (p : Pos) (k : Nat) (cs : List Char) : l.item (p.down k) cs = (l.item p cs).down k := by
  unfold Lexeme.item
  split
  · rfl
  · rw [Pos.after_down]
    rfl

/-- Where a text starts matters to the positions only. -/
theorem scanFrom_down (escapes : Bool) (p : Pos) (k : Nat) (cs : List Char) :
    scanFrom escapes (p.down k) cs = Scan.followedBy ⟨[], p⟩ k (scanFrom escapes p cs) := by
  induction hn : cs.length using Nat.strongRecOn generalizing p cs with
  | _ n ih =>
    rw [scanFrom, scanFrom]
    dsimp only
    rw [Pos.after_down]
    split
    · rfl
    · rename_i c rest hdrop
      have hlen := congrArg List.length hdrop
      simp only [List.length_drop, List.length_cons] at hlen
      have hlt : (rest.drop (lexeme escapes c rest).tail).length < n := by
        rw [List.length_drop]
        omega
      rw [Pos.after_down, ih _ hlt _ _ rfl, item_down]
      rfl

/-! ## Gaps -/

theorem gap_cons (comment : Bool) (c : Char) (cs : List Char) :
    gap comment (c :: cs) =
      if comment then gap (c != '\n') cs + 1
      else if isBlank c then gap false cs + 1
      else if c = '/' ∧ cs.head? = some '/' then gap true cs + 1
      else 0 := rfl

theorem gap_le (comment : Bool) (cs : List Char) : gap comment cs ≤ cs.length := by
  induction cs generalizing comment with
  | nil => exact Nat.le_refl 0
  | cons c cs ih =>
    have h₁ := ih (c != '\n')
    have h₂ := ih false
    have h₃ := ih true
    rw [gap_cons, List.length_cons]
    split_ifs <;> omega

/-- A gap ends before the line does, or else takes the newline and goes on behind it. -/
theorem gap_newline (comment : Bool) (cs ds : List Char) :
    gap comment (cs ++ '\n' :: ds) =
      if gap comment cs = cs.length then cs.length + 1 + gap false ds else gap comment cs := by
  induction cs generalizing comment with
  | nil =>
    rw [List.nil_append, gap_cons]
    cases comment <;> simp [isBlank, gap] <;> omega
  | cons c cs ih =>
    have hhead : (cs ++ '\n' :: ds).head? = some '/' ↔ cs.head? = some '/' := by
      cases cs <;> simp
    rw [List.cons_append, gap_cons, gap_cons]
    simp only [hhead, ih, List.length_cons]
    split_ifs <;> grind

/-! ## Text literals -/

/-- Whether the rest of a text literal with an unknown escape lacks only the character behind its last backslash. -/
def restDangles (escaped : Bool) : List Char → Bool
  | [] => escaped
  | c :: cs =>
    if escaped then restDangles false cs
    else if c = '\n' ∨ c = '"' then false
    else restDangles (c == '\\') cs

/-- The literal of which `cs` stands behind the opening quote has an unknown escape, and its rest dangles. -/
def TextDangles (escapes : Bool) (cs : List Char) : Prop :=
  ∃ offset e, (readText escapes cs).result = .error (.unknownEscape offset e) ∧
    restDangles false (cs.drop (offset + 2)) = true

theorem restOfText_le (escaped : Bool) (cs : List Char) : restOfText escaped cs ≤ cs.length := by
  induction cs generalizing escaped with
  | nil => exact Nat.le_refl 0
  | cons c cs ih =>
    have h₁ := ih false
    have h₂ := ih (c == '\\')
    unfold restOfText
    rw [List.length_cons]
    split_ifs <;> omega

theorem restOfText_newline {escaped : Bool} {cs : List Char} (hcs : restDangles escaped cs = false) (ds : List Char) :
    restOfText escaped (cs ++ '\n' :: ds) = restOfText escaped cs := by
  induction cs generalizing escaped with
  | nil =>
    have hesc : escaped = false := hcs
    simp [restOfText, hesc]
  | cons c cs ih =>
    unfold restDangles at hcs
    rw [List.cons_append, restOfText, restOfText]
    grind

/-- A backslash that dangles joins the next line to the literal. -/
theorem restOfText_dangling {escaped : Bool} {cs : List Char} (hcs : restDangles escaped cs = true) (ds : List Char) :
    restOfText escaped (cs ++ '\n' :: ds) = cs.length + 1 + restOfText false ds := by
  induction cs generalizing escaped with
  | nil =>
    have hesc : escaped = true := hcs
    simp only [hesc, restOfText, List.nil_append, List.length_nil, if_true]
    omega
  | cons c cs ih =>
    unfold restDangles at hcs
    rw [List.cons_append, restOfText, List.length_cons]
    grind

@[simp] theorem length_push (n : Nat) (c : Char) (r : TextReading) : (r.push n c).length = r.length + n := rfl

theorem push_unknownEscape {n offset : Nat} {c e : Char} {r : TextReading}
    (h : (r.push n c).result = .error (.unknownEscape offset e)) :
    ∃ k, offset = k + n ∧ r.result = .error (.unknownEscape k e) := by
  unfold TextReading.push at h
  grind

section ReadText

variable {escapes : Bool} {c e : Char} {cs : List Char}

theorem readText_line : readText escapes ('\n' :: cs) = ⟨0, .error .unterminated⟩ := by
  rw [readText.eq_def]
  rfl

theorem readText_quote : readText escapes ('"' :: cs) = ⟨1, .ok []⟩ := by
  rw [readText.eq_def]
  rfl

theorem readText_plain (hline : c ≠ '\n') (hquote : c ≠ '"') (hplain : c ≠ '\\' ∨ escapes = false) :
    readText escapes (c :: cs) = (readText escapes cs).push 1 c := by
  rw [readText.eq_def]
  simp only [if_neg hline, if_neg hquote, if_pos hplain]

theorem readText_open (hesc : ¬(c ≠ '\\' ∨ escapes = false)) :
    readText escapes (c :: '\n' :: cs) = ⟨1, .error .unterminated⟩ := by
  obtain rfl : c = '\\' := not_ne_iff.1 (not_or.1 hesc).1
  rw [readText.eq_def]
  simp only [if_neg hesc]
  rfl

theorem readText_known {d : Char} (hesc : ¬(c ≠ '\\' ∨ escapes = false)) (hline : e ≠ '\n') (hd : unescape e = some d) :
    readText escapes (c :: e :: cs) = (readText escapes cs).push 2 d := by
  obtain rfl : c = '\\' := not_ne_iff.1 (not_or.1 hesc).1
  rw [readText.eq_def]
  simp only [if_neg hesc, if_neg hline, hd]
  rfl

theorem readText_unknown (hesc : ¬(c ≠ '\\' ∨ escapes = false)) (hline : e ≠ '\n') (hd : unescape e = none) :
    readText escapes (c :: e :: cs) = ⟨restOfText false cs + 2, .error (.unknownEscape 0 e)⟩ := by
  obtain rfl : c = '\\' := not_ne_iff.1 (not_or.1 hesc).1
  rw [readText.eq_def]
  simp only [if_neg hesc, if_neg hline, hd]
  rfl

end ReadText

theorem readText_le (escapes : Bool) (cs : List Char) : (readText escapes cs).length ≤ cs.length := by
  fun_induction readText escapes cs with
  | case8 c hline hquote hesc e cs hline' hd =>
    have := restOfText_le false cs
    simp only [List.length_cons]
    omega
  | _ => grind [TextReading.push]

theorem readText_offset_le {escapes : Bool} {cs : List Char} {offset : Nat} {e : Char}
    (h : (readText escapes cs).result = .error (.unknownEscape offset e)) : offset + 2 ≤ cs.length := by
  fun_induction readText escapes cs generalizing offset with
  | case4 c cs hline hquote hplain ih =>
    obtain ⟨k, rfl, hk⟩ := push_unknownEscape h
    have := ih hk
    simp only [List.length_cons]
    omega
  | case7 c hline hquote hesc e' cs hline' d hd ih =>
    obtain ⟨k, rfl, hk⟩ := push_unknownEscape h
    have := ih hk
    simp only [List.length_cons]
    omega
  | _ => grind

/-- Whether a literal dangles is a matter of the characters behind those that have been read. -/
theorem textDangles_push {escapes : Bool} {cs ds : List Char} {n : Nat} {d : Char}
    (hread : readText escapes cs = (readText escapes ds).push n d) (hdrop : cs.drop n = ds) :
    TextDangles escapes cs ↔ TextDangles escapes ds := by
  have hrest (k : Nat) : cs.drop (k + n + 2) = ds.drop (k + 2) := by
    rw [← hdrop, List.drop_drop]
    congr 1
    omega
  constructor
  · rintro ⟨offset, e, herr, hcs⟩
    rw [hread] at herr
    obtain ⟨k, rfl, hk⟩ := push_unknownEscape herr
    exact ⟨k, e, hk, hrest k ▸ hcs⟩
  · rintro ⟨k, e, hk, hds⟩
    refine ⟨k + n, e, ?_, hrest k ▸ hds⟩
    rw [hread, TextReading.push, hk]

theorem readText_newline {escapes : Bool} {cs : List Char} (hcs : ¬TextDangles escapes cs) (ds : List Char) :
    readText escapes (cs ++ '\n' :: ds) = readText escapes cs := by
  fun_induction readText escapes cs with
  | case1 => exact readText_line
  | case2 cs => exact readText_line
  | case3 cs => exact readText_quote
  | case4 c cs hline hquote hplain ih =>
    have hcs' : ¬TextDangles escapes cs := mt (textDangles_push (readText_plain hline hquote hplain) rfl).2 hcs
    rw [List.cons_append, readText_plain hline hquote hplain, ih hcs']
  | case5 c hline hquote hesc => exact readText_open hesc
  | case6 c hline hquote hesc cs => exact readText_open hesc
  | case7 c hline hquote hesc e cs hline' d hd ih =>
    have hcs' : ¬TextDangles escapes cs := mt (textDangles_push (readText_known hesc hline' hd) rfl).2 hcs
    rw [List.cons_append, List.cons_append, readText_known hesc hline' hd, ih hcs']
  | case8 c hline hquote hesc e cs hline' hd =>
    have hrest : restDangles false cs = false := by
      by_contra hrest
      refine hcs ⟨0, e, ?_, by simpa using hrest⟩
      rw [readText_unknown hesc hline' hd]
    rw [List.cons_append, List.cons_append, readText_unknown hesc hline' hd, restOfText_newline hrest]

theorem readText_dangling {escapes : Bool} {cs : List Char} (hcs : TextDangles escapes cs) (ds : List Char) :
    (readText escapes (cs ++ '\n' :: ds)).length = cs.length + 1 + restOfText false ds := by
  fun_induction readText escapes cs with
  | case4 c cs hline hquote hplain ih =>
    have hcs' := (textDangles_push (readText_plain hline hquote hplain) rfl).1 hcs
    rw [List.cons_append, readText_plain hline hquote hplain, length_push, ih hcs', List.length_cons]
    omega
  | case7 c hline hquote hesc e cs hline' d hd ih =>
    have hcs' := (textDangles_push (readText_known hesc hline' hd) rfl).1 hcs
    rw [List.cons_append, List.cons_append, readText_known hesc hline' hd, length_push, ih hcs',
      List.length_cons, List.length_cons]
    omega
  | case8 c hline hquote hesc e cs hline' hd =>
    obtain ⟨offset, e', herr, hrest⟩ := hcs
    rw [readText_unknown hesc hline' hd] at herr
    cases herr
    have hrest : restDangles false cs = true := hrest
    rw [List.cons_append, List.cons_append, readText_unknown hesc hline' hd, List.length_cons, List.length_cons]
    show restOfText false (cs ++ '\n' :: ds) + 2 = _
    rw [restOfText_dangling hrest]
    omega
  | _ =>
    obtain ⟨offset, e', herr, -⟩ := hcs
    rw [readText.eq_def] at herr
    simp_all

/-! ## Lexemes -/

theorem takeWhile_newline {q : Char → Bool} (hq : q '\n' = false) (cs ds : List Char) :
    (cs ++ '\n' :: ds).takeWhile q = cs.takeWhile q := by
  rw [List.takeWhile_append, List.takeWhile_cons, hq]
  split
  · rename_i hlen
    rw [List.IsPrefix.eq_of_length (List.takeWhile_prefix q) hlen]
    exact List.append_nil cs
  · rfl

/-- A lexeme does not see what stands behind its line. -/
theorem lexeme_newline {escapes : Bool} {c : Char} {cs : List Char} (h : c = '"' → ¬TextDangles escapes cs)
    (ds : List Char) : lexeme escapes c (cs ++ '\n' :: ds) = lexeme escapes c cs := by
  have hhead : (cs ++ '\n' :: ds).head? = some '=' ↔ cs.head? = some '=' := by
    cases cs <;> simp
  unfold lexeme
  rw [takeWhile_newline (by decide), takeWhile_newline (by decide)]
  simp only [hhead]
  by_cases hquote : c = '"'
  · rw [readText_newline (h hquote)]
  · simp only [if_neg hquote]

theorem lexeme_tail_le (escapes : Bool) (c : Char) (cs : List Char) : (lexeme escapes c cs).tail ≤ cs.length := by
  have hrun (q : Char → Bool) : (cs.takeWhile q).length ≤ cs.length := (List.takeWhile_prefix q).length_le
  have htext := readText_le escapes cs
  have hassign : cs.head? = some '=' → 1 ≤ cs.length := by
    cases cs <;> simp
  unfold lexeme
  split_ifs with _ _ _ _ heq
  · exact hrun _
  · exact hrun _
  · exact htext
  · exact hassign heq
  all_goals exact Nat.zero_le _

theorem lexeme_offset_le {escapes : Bool} {c : Char} {cs : List Char} {offset : Nat} {e : LexError}
    (h : (lexeme escapes c cs).reading = .error (offset, e)) : offset ≤ cs.length := by
  have htext (k : Nat) (e : Char) (hread : (readText escapes cs).result = .error (.unknownEscape k e)) :
      k + 1 ≤ cs.length := by
    have := readText_offset_le hread
    omega
  unfold lexeme at h
  grind

theorem item_append (escapes : Bool) (c : Char) (cs ds : List Char) (p : Pos) :
    (lexeme escapes c cs).item p (c :: (cs ++ ds)) = (lexeme escapes c cs).item p (c :: cs) := by
  unfold Lexeme.item
  split
  · rfl
  · rename_i offset e h
    have hle := lexeme_offset_le h
    rw [← List.cons_append, List.take_append_of_le_length (by rw [List.length_cons]; omega)]

/-! ## Texts -/

/-- The items of a text that does not start with a gap. -/
def lexemes (escapes : Bool) (p : Pos) : List Char → Scan
  | [] => ⟨[], p⟩
  | c :: cs =>
    let l := lexeme escapes c cs
    let s := scanFrom escapes (p.after (c :: cs.take l.tail)) (cs.drop l.tail)
    ⟨l.item p (c :: cs) :: s.items, s.ending⟩

theorem scanFrom_eq (escapes : Bool) (p : Pos) (cs : List Char) :
    scanFrom escapes p cs =
      lexemes escapes (p.after (cs.take (gap false cs))) (cs.drop (gap false cs)) := by
  rw [scanFrom]
  dsimp only
  split <;> rename_i h <;> rw [h] <;> rfl

/-- The text ends right behind a backslash, in a text literal with an unknown escape. -/
inductive Dangles (escapes : Bool) : List Char → Prop
  | literal {cs rest : List Char} (hgap : cs.drop (gap false cs) = '"' :: rest) (hrest : TextDangles escapes rest) :
    Dangles escapes cs
  | behind {cs rest : List Char} {c : Char} (hgap : cs.drop (gap false cs) = c :: rest)
    (hrest : Dangles escapes (rest.drop (lexeme escapes c rest).tail)) : Dangles escapes cs

theorem gap_lt {cs rest : List Char} {c : Char} (h : cs.drop (gap false cs) = c :: rest) :
    gap false cs < cs.length := by
  have hlen := congrArg List.length h
  simp only [List.length_drop, List.length_cons] at hlen
  omega

theorem scanFrom_cons {escapes : Bool} {p : Pos} {cs rest : List Char} {c : Char}
    (h : cs.drop (gap false cs) = c :: rest) (ds : List Char) :
    scanFrom escapes p (cs ++ '\n' :: ds) =
      lexemes escapes (p.after (cs.take (gap false cs))) (c :: (rest ++ '\n' :: ds)) := by
  have hlt := gap_lt h
  rw [scanFrom_eq, gap_newline, if_neg (by omega), List.take_append_of_le_length (by omega),
    List.drop_append_of_le_length (by omega), h, List.cons_append]

/-- Behind a line that does not dangle, scanning starts anew. -/
theorem scanFrom_newline {escapes : Bool} {cs : List Char} (hcs : ¬Dangles escapes cs) (p : Pos) (ds : List Char) :
    scanFrom escapes p (cs ++ '\n' :: ds) =
      ⟨(scanFrom escapes p cs).items ++ (scanFrom escapes ((p.after cs).next '\n') ds).items,
        (scanFrom escapes ((p.after cs).next '\n') ds).ending⟩ := by
  induction hn : cs.length using Nat.strongRecOn generalizing p cs with
  | _ n ih =>
    cases hdrop : cs.drop (gap false cs) with
    | nil =>
      have hgap : gap false cs = cs.length := Nat.le_antisymm (gap_le false cs) (List.drop_eq_nil_iff.1 hdrop)
      have hblank : scanFrom escapes p cs = ⟨[], p.after cs⟩ := by
        rw [scanFrom_eq, hdrop, hgap, List.take_length]
        rfl
      rw [hblank, List.nil_append, scanFrom_eq, gap_newline, if_pos hgap]
      have htake : (cs ++ '\n' :: ds).take (cs.length + 1 + gap false ds) = cs ++ '\n' :: ds.take (gap false ds) := by
        rw [Nat.add_assoc, List.take_length_add_append, Nat.add_comm 1, List.take_succ_cons]
      have hskip : (cs ++ '\n' :: ds).drop (cs.length + 1 + gap false ds) = ds.drop (gap false ds) := by
        rw [Nat.add_assoc, List.drop_length_add_append, Nat.add_comm 1, List.drop_succ_cons]
      rw [htake, hskip, Pos.after_append, Pos.after_cons, ← scanFrom_eq]
    | cons c rest =>
      have hlex : c = '"' → ¬TextDangles escapes rest := fun hc hrest => hcs (.literal (hc ▸ hdrop) hrest)
      have htail := lexeme_tail_le escapes c rest
      have hlen := congrArg List.length hdrop
      simp only [List.length_drop, List.length_cons] at hlen
      have hlt : (rest.drop (lexeme escapes c rest).tail).length < n := by
        rw [List.length_drop]
        omega
      have hsplit : p.after cs = ((p.after (cs.take (gap false cs))).after
          (c :: rest.take (lexeme escapes c rest).tail)).after (rest.drop (lexeme escapes c rest).tail) := by
        rw [← Pos.after_append, ← Pos.after_append, List.cons_append, List.take_append_drop, ← hdrop,
          List.take_append_drop]
      rw [scanFrom_cons hdrop, scanFrom_eq escapes p cs, hdrop]
      simp only [lexemes]
      rw [lexeme_newline hlex, item_append, List.take_append_of_le_length htail,
        List.drop_append_of_le_length htail, ih _ hlt (fun h => hcs (.behind hdrop h)) _ rfl, hsplit]
      rfl

/-- Behind a line that dangles, a line of one letter is part of the last literal. -/
theorem items_dangling {escapes : Bool} {cs : List Char} (hcs : Dangles escapes cs) (p : Pos) :
    (scanFrom escapes p (cs ++ ['\n', 'x'])).items.length ≤ (scanFrom escapes p cs).items.length := by
  have hliteral {q : Pos} {rest : List Char} (hrest : TextDangles escapes rest) :
      (lexemes escapes q ('"' :: (rest ++ ['\n', 'x']))).items.length ≤
        (lexemes escapes q ('"' :: rest)).items.length := by
    have htail : (lexeme escapes '"' (rest ++ ['\n', 'x'])).tail = (rest ++ ['\n', 'x']).length := by
      show (readText escapes (rest ++ ['\n', 'x'])).length = _
      rw [readText_dangling hrest, List.length_append]
      rfl
    simp only [lexemes, htail, List.drop_length, List.length_cons]
    rw [scanFrom_eq]
    show 0 + 1 ≤ _
    omega
  induction hcs generalizing p with
  | literal hgap hrest =>
    rw [scanFrom_cons hgap, scanFrom_eq escapes p, hgap]
    exact hliteral hrest
  | @behind cs rest c hgap hrest ih =>
    rw [scanFrom_cons hgap, scanFrom_eq escapes p, hgap]
    by_cases hlex : c = '"' ∧ TextDangles escapes rest
    · obtain ⟨rfl, hrest'⟩ := hlex
      exact hliteral hrest'
    · have htail := lexeme_tail_le escapes c rest
      simp only [lexemes]
      rw [lexeme_newline (fun hc h => hlex ⟨hc, h⟩), List.take_append_of_le_length htail,
        List.drop_append_of_le_length htail]
      exact Nat.succ_le_succ (ih _)

/-- The literal that dangles is an error. -/
theorem exists_error_of_dangles {escapes : Bool} {cs : List Char} (hcs : Dangles escapes cs) (p : Pos) :
    ∃ item ∈ (scanFrom escapes p cs).items, ∃ e, item.reading = .error e := by
  induction hcs generalizing p with
  | @literal cs rest hgap hrest =>
    obtain ⟨offset, e, hresult, -⟩ := hrest
    have hreading : (lexeme escapes '"' rest).reading = .error (offset + 1, .unknownEscape e) := by
      simp [lexeme, hresult]
    rw [scanFrom_eq, hgap]
    refine ⟨_, List.mem_cons_self, .unknownEscape e, ?_⟩
    rw [Lexeme.item, hreading]
  | @behind cs rest c hgap _ ih =>
    rw [scanFrom_eq, hgap]
    obtain ⟨item, hitem, herror⟩ := ih _
    exact ⟨item, List.mem_cons_of_mem _ hitem, herror⟩

end Scan

theorem toList_lines (a b : String) : (a ++ "\n" ++ b).toList = a.toList ++ '\n' :: b.toList := by
  rw [String.toList_append, String.toList_append, List.append_assoc]
  rfl

/-- Behind a text that does not dangle, scanning starts anew. -/
theorem scan_of_not_dangles {escapes : Bool} {a : String} (ha : ¬Scan.Dangles escapes a.toList) (b : String) :
    scan escapes (a ++ "\n" ++ b) = (scan escapes a).followedBy (a.toList.count '\n' + 1) (scan escapes b) := by
  have hdown := Scan.scanFrom_down escapes .start (a.toList.count '\n' + 1) b.toList
  have hstart : Pos.start.down (a.toList.count '\n' + 1) = ⟨Pos.start.line + a.toList.count '\n' + 1, 1⟩ := rfl
  unfold scan
  rw [toList_lines, Scan.scanFrom_newline ha, Pos.after_newline, ← hstart, hdown]
  rfl

/-- So it is with a text without errors. -/
theorem scan_behind {escapes : Bool} {a : String} (ha : ∀ item ∈ (scan escapes a).items, ∃ t, item.reading = .ok t)
    (b : String) :
    scan escapes (a ++ "\n" ++ b) = (scan escapes a).followedBy (a.toList.count '\n' + 1) (scan escapes b) := by
  refine scan_of_not_dangles (fun h => ?_) b
  obtain ⟨item, hitem, e, he⟩ := Scan.exists_error_of_dangles h .start
  obtain ⟨t, ht⟩ := ha item hitem
  cases he.symm.trans ht

/-- The lines of a text are scanned one by one, and the items of later ones stand that much further down. This holds
of every text but one that dangles. -/
theorem scan_lines_iff (escapes : Bool) (a : String) :
    (∀ b : String, scan escapes (a ++ "\n" ++ b) =
      (scan escapes a).followedBy (a.toList.count '\n' + 1) (scan escapes b)) ↔
    ¬Scan.Dangles escapes a.toList := by
  constructor
  · intro h hdangles
    have hjoined := congrArg (·.items.length) (h "x")
    have hone : (scan escapes "x").items.length = 1 := by
      cases escapes <;> decide +kernel
    simp only [Scan.followedBy, List.length_append, List.length_map, hone] at hjoined
    have hlen := Scan.items_dangling hdangles .start
    rw [scan, toList_lines] at hjoined
    change (Scan.scanFrom escapes .start (a.toList ++ ['\n', 'x'])).items.length = _ at hjoined
    rw [hjoined, scan] at hlen
    exact Nat.not_succ_le_self _ hlen
  · exact fun hdangles => scan_of_not_dangles hdangles

/-- A backslash at the end of a line, in a literal that has an unknown escape, hides the next line. -/
theorem scan_backslash_newline :
    scan true ("\"\\q\\" ++ "\n" ++ "FUNC") ≠ (scan true "\"\\q\\").followedBy 1 (scan true "FUNC") := by
  intro h
  have hlen := congrArg (·.items.length) h
  revert hlen
  decide +kernel

end Funclet
