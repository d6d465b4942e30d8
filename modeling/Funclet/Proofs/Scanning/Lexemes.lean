import Mathlib.Data.List.Basic
import Funclet.Proofs.Scanning.Lines

/-!
# What a gap is and what a lexeme is

* `Skipped`, `Reads` : gaps and lexemes as they are written, said of the characters and of what follows them, without
  the functions that measure them;
* `Numeral`, `Means` : the numbers and the words among them;
* `Denotes`, `Passed`, `Literal` : text literals, and how they can go wrong;
* `exists_skipped`, `Skipped.gap_eq` : `gap` measures the gap at the front of a text;
* `exists_reads`, `Reads.lexeme_eq` : `lexeme` measures and reads the lexeme there. There is always one, and only one.
-/

namespace Funclet.Scan

/-- The next character, if there is one, is none of those in `q`. -/
def Stops (q : Char → Bool) (rest : List Char) : Prop := ∀ d ∈ rest.head?, q d = false

def AtLineEnd (rest : List Char) : Prop := ∀ d ∈ rest.head?, d = '\n'

/-- A text is split where a run of characters stops. -/
theorem exists_run (q : Char → Bool) (cs : List Char) :
    ∃ run rest, cs = run ++ rest ∧ (∀ d ∈ run, q d = true) ∧ Stops q rest := by
  refine ⟨cs.takeWhile q, cs.dropWhile q, List.takeWhile_append_dropWhile.symm, ?_, ?_⟩
  · exact List.all_eq_true.1 List.all_takeWhile
  · intro d hd
    have hhead := List.head?_dropWhile_not q cs
    rw [hd] at hhead
    exact hhead

theorem takeWhile_run {q : Char → Bool} {run rest : List Char} (hrun : ∀ d ∈ run, q d = true) (hrest : Stops q rest) :
    (run ++ rest).takeWhile q = run := by
  rw [List.takeWhile_append_of_pos hrun]
  cases rest with
  | nil => exact List.append_nil run
  | cons d rest =>
    rw [List.takeWhile_cons, hrest d rfl]
    exact List.append_nil run

/-! ## Gaps -/

/-- Blanks and comments, where `rest` follows. A comment goes on to the end of its line. -/
inductive Skipped : List Char → List Char → Prop
  | nil {rest : List Char} : Skipped [] rest
  | blank {c : Char} {cs rest : List Char} (hc : isBlank c = true) (h : Skipped cs rest) : Skipped (c :: cs) rest
  | comment {body cs rest : List Char} (hbody : '\n' ∉ body) (hend : AtLineEnd (cs ++ rest)) (h : Skipped cs rest) :
      Skipped ('/' :: '/' :: body ++ cs) rest

/-- A comment is passed over up to the end of its line. -/
theorem gap_comment {body cs : List Char} (hbody : '\n' ∉ body) (hend : AtLineEnd cs) :
    gap true (body ++ cs) = body.length + gap false cs := by
  induction body with
  | nil =>
    cases cs with
    | nil => rfl
    | cons c cs =>
      cases hend c rfl
      rw [List.nil_append, gap_cons, gap_cons]
      simp [isBlank]
  | cons c body ih =>
    have hc : (c != '\n') = true := bne_iff_ne.2 (Ne.symm (List.ne_of_not_mem_cons hbody))
    rw [List.cons_append, gap_cons, if_pos rfl, hc, ih (List.not_mem_of_not_mem_cons hbody), List.length_cons]
    omega

theorem gap_slashes (cs : List Char) : gap false ('/' :: '/' :: cs) = gap true cs + 2 := by
  rw [gap_cons, gap_cons]
  rfl

theorem Skipped.gap_eq {cs rest : List Char} (h : Skipped cs rest) :
    gap false (cs ++ rest) = cs.length + gap false rest := by
  induction h with
  | nil => rw [List.nil_append, List.length_nil, Nat.zero_add]
  | blank hc _ ih =>
    rw [List.cons_append, gap_cons, if_neg (by decide), if_pos hc, ih, List.length_cons]
    omega
  | comment hbody hend _ ih =>
    rw [List.cons_append, List.cons_append, List.cons_append, List.cons_append, List.append_assoc, gap_slashes,
      gap_comment hbody hend, ih, List.length_cons, List.length_cons, List.length_append]
    omega

/-- Every text starts with a gap, and no gap follows it. -/
theorem exists_skipped (cs : List Char) :
    ∃ skipped rest, cs = skipped ++ rest ∧ Skipped skipped rest ∧ gap false rest = 0 := by
  induction hn : cs.length using Nat.strongRecOn generalizing cs with
  | _ n ih =>
    by_cases hgap : gap false cs = 0
    · exact ⟨[], cs, rfl, .nil, hgap⟩
    · obtain _ | ⟨c, cs⟩ := cs
      · exact absurd rfl hgap
      · rw [gap_cons, if_neg (by decide)] at hgap
        split at hgap
        · rename_i hblank
          obtain ⟨skipped, rest, rfl, hskipped, hrest⟩ := ih _ (by rw [← hn]; exact Nat.lt_succ_self _) cs rfl
          exact ⟨c :: skipped, rest, rfl, .blank hblank hskipped, hrest⟩
        · split at hgap
          · rename_i hslash
            obtain ⟨rfl, hslash⟩ := hslash
            obtain ⟨cs, rfl⟩ : ∃ cs', cs = '/' :: cs' := by
              cases cs with
              | nil => cases hslash
              | cons d cs => exact ⟨cs, by rw [Option.some.inj hslash]⟩
            obtain ⟨body, cs, rfl, hbody, hend⟩ := exists_run (· != '\n') cs
            obtain ⟨skipped, rest, rfl, hskipped, hrest⟩ := ih cs.length
              (by rw [← hn]; simp only [List.length_cons, List.length_append]; omega) cs rfl
            refine ⟨'/' :: '/' :: body ++ skipped, rest, by simp, .comment ?_ ?_ hskipped, hrest⟩
            · exact fun hline => absurd (hbody _ hline) (by decide)
            · exact fun d hd => by simpa using hend d hd
          · exact absurd rfl hgap

/-! ## Words and numbers -/

/-- What a word stands for: the keyword that it spells, or else a name. -/
inductive Means : List Char → Token → Prop
  | keyword (k : Keyword) : Means k.spelling.toList (.keyword k)
  | ident {word : List Char} (hfree : ∀ k : Keyword, k.spelling.toList ≠ word) :
      Means word (.ident (String.ofList word))

theorem means_wordToken (word : List Char) : Means word (wordToken word) := by
  unfold wordToken Keyword.ofString?
  split
  · rename_i k hk
    have hspelling : k.spelling = String.ofList word := by simpa using List.find?_some hk
    have hword : k.spelling.toList = word := by rw [hspelling, String.toList_ofList]
    rw [← hword]
    exact .keyword k
  · rename_i hnone
    refine .ident fun k hk => ?_
    have hne := List.find?_eq_none.1 hnone k (by cases k <;> decide)
    rw [← hk, String.ofList_toList] at hne
    simp at hne

theorem Means.eq_wordToken {word : List Char} {t : Token} (h : Means word t) : t = wordToken word := by
  cases h with
  | keyword k => cases k <;> decide
  | ident hfree =>
    have hword := means_wordToken word
    generalize wordToken word = t at hword
    cases hword with
    | keyword k => exact absurd rfl (hfree k)
    | ident => rfl

inductive Numeral : List Char → Prop
  | whole {ds : List Char} (hne : ds ≠ []) (hds : ∀ d ∈ ds, d.isDigit = true) : Numeral ds
  | point {ds fs : List Char} (hne : ds ≠ []) (hds : ∀ d ∈ ds, d.isDigit = true) (hfne : fs ≠ [])
      (hfs : ∀ d ∈ fs, d.isDigit = true) : Numeral (ds ++ '.' :: fs)

theorem Numeral.digits {run : List Char} (h : Numeral run) :
    ∃ c cs, run = c :: cs ∧ c.isDigit = true ∧ ∀ d ∈ cs, (d.isDigit || d == '.') = true := by
  have hmark {ds : List Char} (hds : ∀ d ∈ ds, d.isDigit = true) : ∀ d ∈ ds, (d.isDigit || d == '.') = true :=
    fun d hd => by rw [hds d hd, Bool.true_or]
  cases h with
  | whole hne hds =>
    obtain ⟨c, cs, rfl⟩ := List.exists_cons_of_ne_nil hne
    obtain ⟨hc, hcs⟩ := List.forall_mem_cons.1 hds
    exact ⟨c, cs, rfl, hc, hmark hcs⟩
  | @point ds fs hne hds hfne hfs =>
    obtain ⟨c, cs, rfl⟩ := List.exists_cons_of_ne_nil hne
    obtain ⟨hc, hcs⟩ := List.forall_mem_cons.1 hds
    refine ⟨c, cs ++ '.' :: fs, rfl, hc, ?_⟩
    rw [List.forall_mem_append, List.forall_mem_cons]
    exact ⟨hmark hcs, by decide, hmark hfs⟩

theorem Numeral.isNumeral {run : List Char} (h : Numeral run) : isNumeral run = true := by
  have hcount {ds : List Char} (hds : ∀ d ∈ ds, d.isDigit = true) : ds.count '.' = 0 :=
    List.count_eq_zero.2 fun hdot => absurd (hds _ hdot) (by decide)
  have hlast {ds : List Char} (hds : ∀ d ∈ ds, d.isDigit = true) : ds.getLast? ≠ some '.' :=
    fun hdot => absurd (hds _ (List.mem_of_getLast? hdot)) (by decide)
  unfold Scan.isNumeral
  cases h with
  | whole hne hds => simp [hcount hds, hlast hds]
  | @point ds fs hne hds hfne hfs =>
    have hend : (ds ++ '.' :: fs).getLast? = fs.getLast? := by
      rw [List.getLast?_append_of_ne_nil _ (List.cons_ne_nil _ _), List.getLast?_cons_of_ne_nil hfne]
    rw [hend, List.count_append, List.count_cons_self, hcount hds, hcount hfs]
    simp [hlast hfs]

/-- A run of digits and points is accepted if and only if it has the form of a number. -/
theorem isNumeral_iff {c : Char} {cs : List Char} (hc : c.isDigit = true)
    (hcs : ∀ d ∈ cs, (d.isDigit || d == '.') = true) : isNumeral (c :: cs) = true ↔ Numeral (c :: cs) := by
  refine ⟨fun h => ?_, Numeral.isNumeral⟩
  have hdigit {d : Char} (hd : d ∈ cs) (hne : d ≠ '.') : d.isDigit = true := by
    simpa [hne] using hcs d hd
  have hcne : c ≠ '.' := by rintro rfl; cases hc
  simp only [isNumeral, Bool.and_eq_true, decide_eq_true_eq, bne_iff_ne, List.count_cons_of_ne hcne] at h
  obtain ⟨hcount, hlast⟩ := h
  by_cases hdot : '.' ∈ cs
  · obtain ⟨ds, fs, rfl⟩ := List.append_of_mem hdot
    rw [List.count_append, List.count_cons_self] at hcount
    have hds : '.' ∉ ds := List.count_eq_zero.1 (by omega)
    have hfs : '.' ∉ fs := List.count_eq_zero.1 (by omega)
    rw [← List.cons_append]
    refine .point (List.cons_ne_nil _ _) ?_ ?_ ?_
    · intro d hd
      rcases List.mem_cons.1 hd with rfl | hd
      · exact hc
      · exact hdigit (List.mem_append_left _ hd) (fun h => hds (h ▸ hd))
    · rintro rfl
      rw [← List.cons_append] at hlast
      exact hlast List.getLast?_concat
    · exact fun d hd => hdigit (by simp [hd]) (fun h => hfs (h ▸ hd))
  · refine .whole (List.cons_ne_nil _ _) fun d hd => ?_
    rcases List.mem_cons.1 hd with rfl | hd
    · exact hc
    · exact hdigit hd (fun h => hdot (h ▸ hd))

/-! ## Text literals -/

/-- Between quotes, the characters `cs` stand for the text `s`. -/
inductive Denotes (escapes : Bool) : List Char → List Char → Prop
  | nil : Denotes escapes [] []
  | plain {c : Char} {cs s : List Char} (hline : c ≠ '\n') (hquote : c ≠ '"') (hplain : c ≠ '\\' ∨ escapes = false)
      (h : Denotes escapes cs s) : Denotes escapes (c :: cs) (c :: s)
  | escape {e d : Char} {cs s : List Char} (hesc : escapes = true) (he : unescape e = some d)
      (h : Denotes escapes cs s) : Denotes escapes ('\\' :: e :: cs) (d :: s)

/-- What is left of a literal with an unknown escape, where `rest` follows: up to the closing quote or to the end of the
line. A character behind a backslash is neither. -/
inductive Passed : List Char → List Char → Prop
  | line {rest : List Char} (hrest : AtLineEnd rest) : Passed [] rest
  | quote {rest : List Char} : Passed ['"'] rest
  | plain {c : Char} {cs rest : List Char} (hline : c ≠ '\n') (hquote : c ≠ '"') (hslash : c ≠ '\\')
      (h : Passed cs rest) : Passed (c :: cs) rest
  | escaped {c : Char} {cs rest : List Char} (h : Passed cs rest) : Passed ('\\' :: c :: cs) rest
  | backslash : Passed ['\\'] []

/-- The characters of a text literal behind its opening quote, where `rest` follows, and what they come to. -/
inductive Literal (escapes : Bool) : List Char → List Char → Except TextError (List Char) → Prop
  | closed {cs s rest : List Char} (h : Denotes escapes cs s) : Literal escapes (cs ++ ['"']) rest (.ok s)
  | unclosed {cs s rest : List Char} (h : Denotes escapes cs s) (hrest : AtLineEnd rest) :
      Literal escapes cs rest (.error .unterminated)
  | cut {cs s rest : List Char} (hesc : escapes = true) (h : Denotes escapes cs s) (hrest : AtLineEnd rest) :
      Literal escapes (cs ++ ['\\']) rest (.error .unterminated)
  | unknown {e : Char} {cs s more rest : List Char} (hesc : escapes = true) (h : Denotes escapes cs s)
      (hline : e ≠ '\n') (he : unescape e = none) (hmore : Passed more rest) :
      Literal escapes (cs ++ '\\' :: e :: more) rest (.error (.unknownEscape cs.length e))

theorem Passed.restOfText_eq {cs rest : List Char} (h : Passed cs rest) :
    restOfText false (cs ++ rest) = cs.length := by
  induction h with
  | @line rest hrest =>
    cases rest with
    | nil => rfl
    | cons c rest => cases hrest c rfl; rfl
  | quote => rfl
  | plain hline hquote hslash _ ih =>
    rw [List.cons_append, restOfText, if_neg (by decide), if_neg hline, if_neg hquote, beq_false_of_ne hslash, ih]
    rfl
  | escaped _ ih =>
    rw [List.cons_append, List.cons_append, restOfText, if_neg (by decide), if_neg (by decide), if_neg (by decide),
      beq_self_eq_true, restOfText, if_pos rfl, ih]
    rfl
  | backslash => rfl

theorem exists_passed (cs : List Char) : ∃ passed rest, cs = passed ++ rest ∧ Passed passed rest := by
  induction hn : cs.length using Nat.strongRecOn generalizing cs with
  | _ n ih =>
    obtain _ | ⟨c, cs⟩ := cs
    · exact ⟨[], [], rfl, .line fun d hd => by cases hd⟩
    · by_cases hline : c = '\n'
      · exact ⟨[], c :: cs, rfl, .line fun d hd => (Option.some.inj hd).symm.trans hline⟩
      · by_cases hquote : c = '"'
        · exact ⟨['"'], cs, by rw [hquote]; rfl, .quote⟩
        · by_cases hslash : c = '\\'
          · obtain _ | ⟨d, cs⟩ := cs
            · exact ⟨['\\'], [], by rw [hslash]; rfl, .backslash⟩
            · obtain ⟨passed, rest, rfl, h⟩ := ih cs.length (by rw [← hn]; simp only [List.length_cons]; omega) cs rfl
              exact ⟨'\\' :: d :: passed, rest, by rw [hslash]; rfl, .escaped h⟩
          · obtain ⟨passed, rest, rfl, h⟩ := ih cs.length (by rw [← hn]; exact Nat.lt_succ_self _) cs rfl
            exact ⟨c :: passed, rest, rfl, .plain hline hquote hslash h⟩

theorem Denotes.append {escapes : Bool} {cs ds s t : List Char} (h : Denotes escapes cs s) (h' : Denotes escapes ds t) :
    Denotes escapes (cs ++ ds) (s ++ t) := by
  induction h with
  | nil => exact h'
  | plain hline hquote hplain _ ih => exact .plain hline hquote hplain ih
  | escape hesc he _ ih => exact .escape hesc he ih

/-- The rest of a literal is a literal too with more of the text in front of it. -/
theorem Literal.extend {escapes : Bool} {front s cs rest : List Char} {r : Except TextError (List Char)}
    (hfront : Denotes escapes front s) (h : Literal escapes cs rest r) :
    ∃ r', Literal escapes (front ++ cs) rest r' := by
  cases h with
  | closed h =>
    rw [← List.append_assoc]
    exact ⟨_, .closed (hfront.append h)⟩
  | unclosed h hrest => exact ⟨_, .unclosed (hfront.append h) hrest⟩
  | cut hesc h hrest =>
    rw [← List.append_assoc]
    exact ⟨_, .cut hesc (hfront.append h) hrest⟩
  | unknown hesc h hline he hmore =>
    rw [← List.append_assoc]
    exact ⟨_, .unknown hesc (hfront.append h) hline he hmore⟩

/-- Behind a quote, every text starts with the rest of a literal. -/
theorem exists_literal (escapes : Bool) (cs : List Char) :
    ∃ literal rest r, cs = literal ++ rest ∧ Literal escapes literal rest r := by
  have hnewline (cs : List Char) : AtLineEnd ('\n' :: cs) := fun d hd => (Option.some.inj hd).symm
  induction hn : cs.length using Nat.strongRecOn generalizing cs with
  | _ n ih =>
    obtain _ | ⟨c, cs⟩ := cs
    · exact ⟨[], [], _, rfl, .unclosed .nil fun d hd => by cases hd⟩
    · rw [List.length_cons] at hn
      by_cases hline : c = '\n'
      · exact ⟨[], _, _, rfl, .unclosed .nil (hline ▸ hnewline cs)⟩
      by_cases hquote : c = '"'
      · exact ⟨['"'], cs, _, by rw [hquote]; rfl, .closed .nil⟩
      by_cases hplain : c ≠ '\\' ∨ escapes = false
      · obtain ⟨literal, rest, r, rfl, h⟩ := ih cs.length (by omega) cs rfl
        obtain ⟨r', h'⟩ := h.extend (.plain hline hquote hplain .nil)
        exact ⟨c :: literal, rest, r', rfl, h'⟩
      · obtain ⟨rfl, hesc⟩ : c = '\\' ∧ escapes = true := by simpa using hplain
        obtain _ | ⟨e, cs⟩ := cs
        · exact ⟨['\\'], [], _, rfl, .cut hesc .nil fun d hd => by cases hd⟩
        · rw [List.length_cons] at hn
          by_cases hline' : e = '\n'
          · exact ⟨['\\'], _, _, rfl, .cut hesc .nil (hline' ▸ hnewline cs)⟩
          · cases he : unescape e with
            | some d =>
              obtain ⟨literal, rest, r, rfl, h⟩ := ih cs.length (by omega) cs rfl
              obtain ⟨r', h'⟩ := h.extend (.escape hesc he .nil)
              exact ⟨'\\' :: e :: literal, rest, r', rfl, h'⟩
            | none =>
              obtain ⟨passed, rest, rfl, h⟩ := exists_passed cs
              exact ⟨'\\' :: e :: passed, rest, _, rfl, .unknown hesc .nil hline' he h⟩

/-- The reading of `n` characters that stand for `s`, and then of what `r` has read. -/
def TextReading.behind (r : TextReading) (n : Nat) (s : List Char) : TextReading where
  length := r.length + n
  result := match r.result with
    | .ok t => .ok (s ++ t)
    | .error (.unknownEscape offset e) => .error (.unknownEscape (offset + n) e)
    | .error .unterminated => .error .unterminated

theorem behind_push (r : TextReading) (n m : Nat) (c : Char) (s : List Char) :
    (r.behind n s).push m c = r.behind (n + m) (c :: s) := by
  obtain ⟨length, (_ | _) | _⟩ := r <;> simp [TextReading.push, TextReading.behind, Nat.add_assoc]

theorem Denotes.readText_eq {escapes : Bool} {cs s : List Char} (h : Denotes escapes cs s) (rest : List Char) :
    readText escapes (cs ++ rest) = (readText escapes rest).behind cs.length s := by
  induction h with
  | nil =>
    rw [List.nil_append]
    obtain ⟨length, (_ | _) | _⟩ := readText escapes rest <;> rfl
  | plain hline hquote hplain _ ih =>
    rw [List.cons_append, readText_plain hline hquote hplain, ih, behind_push]
    rfl
  | @escape e d cs s hesc he _ ih =>
    have hline : e ≠ '\n' := by
      rintro rfl
      cases he
    rw [List.cons_append, List.cons_append, readText_known (by simp [hesc]) hline he, ih, behind_push]
    rfl

/-- Nothing but a literal is read as it is. -/
theorem Literal.readText_eq {escapes : Bool} {cs rest : List Char} {r : Except TextError (List Char)}
    (h : Literal escapes cs rest r) : readText escapes (cs ++ rest) = ⟨cs.length, r⟩ := by
  cases h with
  | @closed cs s _ h =>
    rw [List.append_assoc, h.readText_eq, List.singleton_append, readText_quote, List.length_append]
    simp [TextReading.behind, Nat.add_comm]
  | unclosed h hrest =>
    have hread : readText escapes rest = ⟨0, .error .unterminated⟩ := by
      cases rest with
      | nil => rfl
      | cons c rest =>
        cases hrest c rfl
        exact readText_line
    rw [h.readText_eq, hread]
    simp [TextReading.behind]
  | @cut cs s _ hesc h hrest =>
    have hread : readText escapes ('\\' :: rest) = ⟨1, .error .unterminated⟩ := by
      subst hesc
      cases rest with
      | nil => rfl
      | cons c rest =>
        cases hrest c rfl
        exact readText_open (by decide)
    rw [List.append_assoc, h.readText_eq, List.singleton_append, hread, List.length_append]
    simp [TextReading.behind, Nat.add_comm]
  | @unknown e cs s more _ hesc h hline he hmore =>
    rw [List.append_assoc, h.readText_eq, List.cons_append, List.cons_append,
      readText_unknown (by simp [hesc]) hline he, hmore.restOfText_eq]
    simp only [TextReading.behind, List.length_append, List.length_cons, Nat.zero_add, TextReading.mk.injEq, and_true]
    omega

/-! ## Lexemes -/

/-- The lexeme `cs`, where `rest` follows, is read as `reading`. This is reported behind the part `lead` of the
lexeme. -/
inductive Reads (escapes : Bool) : List Char → List Char → List Char → Except LexError Token → Prop
  | word {c : Char} {cs rest : List Char} {t : Token} (hc : c.isAlpha = true) (hcs : ∀ d ∈ cs, d.isAlphanum = true)
      (hrest : Stops Char.isAlphanum rest) (ht : Means (c :: cs) t) : Reads escapes (c :: cs) rest [] (.ok t)
  | number {c : Char} {cs rest : List Char} (hc : c.isDigit = true) (hcs : ∀ d ∈ cs, (d.isDigit || d == '.') = true)
      (hrest : Stops (fun d => d.isDigit || d == '.') rest) (h : Numeral (c :: cs)) :
      Reads escapes (c :: cs) rest [] (.ok (.number (Decimal.ofDigits (c :: cs)).nearest))
  | malformed {c : Char} {cs rest : List Char} (hc : c.isDigit = true) (hcs : ∀ d ∈ cs, (d.isDigit || d == '.') = true)
      (hrest : Stops (fun d => d.isDigit || d == '.') rest) (h : ¬Numeral (c :: cs)) :
      Reads escapes (c :: cs) rest [] (.error (.malformedNumber (String.ofList (c :: cs))))
  | text {cs s rest : List Char} (h : Literal escapes cs rest (.ok s)) :
      Reads escapes ('"' :: cs) rest [] (.ok (.text (String.ofList s)))
  | unterminated {cs rest : List Char} (h : Literal escapes cs rest (.error .unterminated)) :
      Reads escapes ('"' :: cs) rest [] (.error .unterminatedText)
  | unknownEscape {cs more rest : List Char} {e : Char}
      (h : Literal escapes (cs ++ '\\' :: e :: more) rest (.error (.unknownEscape cs.length e))) :
      Reads escapes ('"' :: (cs ++ '\\' :: e :: more)) rest ('"' :: cs) (.error (.unknownEscape e))
  | assign {rest : List Char} : Reads escapes [':', '='] rest [] (.ok .assign)
  | colon {rest : List Char} (hrest : rest.head? ≠ some '=') : Reads escapes [':'] rest [] (.error .loneColon)
  | symbol {c : Char} {rest : List Char} (hc : isPunctuation c = true) (hquote : c ≠ '"') (hcolon : c ≠ ':')
      (hslash : c = '/' → rest.head? ≠ some '/') : Reads escapes [c] rest [] (.ok (.symbol c))
  | unexpected {c : Char} {rest : List Char} (hblank : isBlank c = false) (hword : c.isAlphanum = false)
      (hc : isPunctuation c = false) : Reads escapes [c] rest [] (.error (.unexpectedCharacter c))

/-- Where no gap is, a lexeme is. -/
theorem exists_reads (escapes : Bool) {c : Char} {cs : List Char} (hgap : gap false (c :: cs) = 0) :
    ∃ tail rest lead reading, cs = tail ++ rest ∧ Reads escapes (c :: tail) rest lead reading := by
  rw [gap_cons, if_neg (by decide)] at hgap
  have hblank : isBlank c = false := by
    by_contra h
    rw [if_pos (by simpa using h)] at hgap
    cases hgap
  have hslash : c = '/' → cs.head? ≠ some '/' := by
    intro hc hcs
    rw [if_neg (by simp [hblank]), if_pos ⟨hc, hcs⟩] at hgap
    cases hgap
  by_cases halpha : c.isAlpha = true
  · obtain ⟨run, rest, rfl, hrun, hrest⟩ := exists_run Char.isAlphanum cs
    exact ⟨run, rest, _, _, rfl, .word halpha hrun hrest (means_wordToken _)⟩
  by_cases hdigit : c.isDigit = true
  · obtain ⟨run, rest, rfl, hrun, hrest⟩ := exists_run (fun d => d.isDigit || d == '.') cs
    by_cases hnumeral : Numeral (c :: run)
    · exact ⟨run, rest, _, _, rfl, .number hdigit hrun hrest hnumeral⟩
    · exact ⟨run, rest, _, _, rfl, .malformed hdigit hrun hrest hnumeral⟩
  by_cases hquote : c = '"'
  · obtain ⟨literal, rest, r, rfl, h⟩ := exists_literal escapes cs
    subst hquote
    obtain (_ | ⟨offset, e⟩) | s := r
    · exact ⟨literal, rest, _, _, rfl, .unterminated h⟩
    · cases h with
      | unknown hesc h hline he hmore => exact ⟨_, rest, _, _, rfl, .unknownEscape (.unknown hesc h hline he hmore)⟩
    · exact ⟨literal, rest, _, _, rfl, .text h⟩
  by_cases hcolon : c = ':'
  · subst hcolon
    by_cases heq : cs.head? = some '='
    · obtain ⟨cs, rfl⟩ := List.head?_eq_some_iff.1 heq
      exact ⟨['='], cs, _, _, rfl, .assign⟩
    · exact ⟨[], cs, _, _, rfl, .colon heq⟩
  by_cases hpunct : isPunctuation c = true
  · exact ⟨[], cs, _, _, rfl, .symbol hpunct hquote hcolon hslash⟩
  · refine ⟨[], cs, _, _, rfl, .unexpected hblank ?_ (by simpa using hpunct)⟩
    simp [Char.isAlphanum, halpha, hdigit]

theorem eq_of_isBlank {c : Char} (h : isBlank c = true) : c = ' ' ∨ c = '\t' ∨ c = '\x0d' ∨ c = '\n' := by
  unfold isBlank at h
  grind

theorem isBlank_of_alphanum {c : Char} (h : c.isAlphanum = true) : isBlank c = false := by
  refine Bool.eq_false_iff.2 fun hblank => ?_
  rcases eq_of_isBlank hblank with rfl | rfl | rfl | rfl <;> cases h

/-- No gap starts with a character that is no blank and no slash. -/
theorem gap_eq_zero {c : Char} {cs : List Char} (hblank : isBlank c = false) (hslash : c = '/' → cs.head? ≠ some '/') :
    gap false (c :: cs) = 0 := by
  rw [gap_cons, if_neg (by decide), if_neg (by rw [hblank]; decide), if_neg]
  exact fun h => hslash h.1 h.2

section Characters

variable {c : Char}

theorem isAlpha_of_isDigit (h : c.isDigit = true) : c.isAlpha = false := by
  unfold Char.isAlpha Char.isUpper Char.isLower
  unfold Char.isDigit at h
  grind

/-- Punctuation is none of the characters that words, numbers and gaps start with, the slash apart. -/
theorem of_isPunctuation (h : isPunctuation c = true) : c.isAlpha = false ∧ c.isDigit = false ∧ isBlank c = false := by
  unfold isPunctuation at h
  simp only [Bool.and_eq_true, decide_eq_true_eq, Bool.not_eq_true', Char.isAlphanum, Bool.or_eq_false_iff] at h
  obtain ⟨⟨hlow, -⟩, halpha, hdigit⟩ := h
  refine ⟨halpha, hdigit, Bool.eq_false_iff.2 fun hblank => ?_⟩
  rcases eq_of_isBlank hblank with rfl | rfl | rfl | rfl <;> exact absurd hlow (by decide)

end Characters

/-- A run of digits and points is a lexeme. -/
theorem lexeme_run (escapes : Bool) {c : Char} {cs rest : List Char} (hc : c.isDigit = true)
    (hcs : ∀ d ∈ cs, (d.isDigit || d == '.') = true) (hrest : Stops (fun d => d.isDigit || d == '.') rest) :
    gap false (c :: (cs ++ rest)) = 0 ∧
      lexeme escapes c (cs ++ rest) = ⟨cs.length,
        if isNumeral (c :: cs) then .ok (.number (Decimal.ofDigits (c :: cs)).nearest)
        else .error (0, .malformedNumber (String.ofList (c :: cs)))⟩ := by
  have hword : c.isAlphanum = true := by rw [Char.isAlphanum, hc, Bool.or_true]
  refine ⟨gap_eq_zero (isBlank_of_alphanum hword) ?_, ?_⟩
  · rintro rfl
    cases hc
  · rw [lexeme, if_neg (by rw [isAlpha_of_isDigit hc]; decide), if_pos hc, takeWhile_run hcs hrest]

/-- A lexeme is measured and read as what it is, and no gap is in front of it. -/
theorem Reads.lexeme_eq {escapes : Bool} {c : Char} {cs rest lead : List Char} {reading : Except LexError Token}
    (h : Reads escapes (c :: cs) rest lead reading) :
    gap false (c :: (cs ++ rest)) = 0 ∧
      lexeme escapes c (cs ++ rest) = ⟨cs.length, reading.mapError fun e => (lead.length, e)⟩ := by
  have hsolid {c : Char} {cs : List Char} (hc : isBlank c = false ∧ c ≠ '/') : gap false (c :: cs) = 0 :=
    gap_eq_zero hc.1 fun hslash => absurd hslash hc.2
  cases h with
  | word hc hcs hrest ht =>
    have hword : c.isAlphanum = true := by rw [Char.isAlphanum, hc, Bool.true_or]
    refine ⟨hsolid ⟨isBlank_of_alphanum hword, ?_⟩, ?_⟩
    · rintro rfl
      cases hc
    · rw [ht.eq_wordToken, lexeme, if_pos hc, takeWhile_run hcs hrest]
      rfl
  | number hc hcs hrest h =>
    obtain ⟨hgap, hlex⟩ := lexeme_run escapes hc hcs hrest
    rw [if_pos h.isNumeral] at hlex
    exact ⟨hgap, hlex⟩
  | malformed hc hcs hrest h =>
    obtain ⟨hgap, hlex⟩ := lexeme_run escapes hc hcs hrest
    rw [if_neg (mt (isNumeral_iff hc hcs).1 h)] at hlex
    exact ⟨hgap, hlex⟩
  | text h | unterminated h | unknownEscape h =>
    refine ⟨hsolid (by decide), ?_⟩
    rw [lexeme, if_neg (by decide), if_neg (by decide), if_pos rfl, h.readText_eq]
    rfl
  | assign => exact ⟨hsolid (by decide), rfl⟩
  | colon hrest =>
    refine ⟨hsolid (by decide), ?_⟩
    rw [List.nil_append, lexeme, if_neg (by decide), if_neg (by decide), if_neg (by decide), if_pos rfl, if_neg hrest]
    rfl
  | symbol hc hquote hcolon hslash =>
    obtain ⟨halpha, hdigit, hblank⟩ := of_isPunctuation hc
    refine ⟨gap_eq_zero hblank hslash, ?_⟩
    rw [List.nil_append, lexeme, if_neg (by rw [halpha]; decide), if_neg (by rw [hdigit]; decide), if_neg hquote,
      if_neg hcolon, if_pos hc]
    rfl
  | unexpected hblank hword hc =>
    obtain ⟨halpha, hdigit⟩ : c.isAlpha = false ∧ c.isDigit = false := by simpa [Char.isAlphanum] using hword
    have hne {d : Char} (hd : isPunctuation d = true) : c ≠ d := by
      rintro rfl
      cases hc.symm.trans hd
    refine ⟨hsolid ⟨hblank, hne (by decide)⟩, ?_⟩
    rw [List.nil_append, lexeme, if_neg (by rw [halpha]; decide), if_neg (by rw [hdigit]; decide),
      if_neg (hne (by decide)), if_neg (hne (by decide)), if_neg (by rw [hc]; decide)]
    rfl

/-- Only an error can be reported behind the front of its lexeme. -/
theorem Reads.item_eq {escapes : Bool} {cs rest lead : List Char} {reading : Except LexError Token}
    (h : Reads escapes cs rest lead reading) (n : Nat) (p : Pos) (ds : List Char) :
    Lexeme.item ⟨n, reading.mapError fun e => (lead.length, e)⟩ p (cs ++ ds) = ⟨p.after lead, reading⟩ := by
  cases h with
  | unknownEscape h =>
    simp [Lexeme.item, Except.mapError]
  | _ => rfl

end Funclet.Scan
