import Mathlib.Data.List.Basic
import Funclet.Proofs.Scanning.Segments

/-!
# Spelling tokens

* `Word` : a token with a spelling of it; `Word.Sound` : where a space or the end of the text follows, the spelling is
  read as the token;
* `Word.key`, `Word.ident`, `Word.num`, `Word.quoted`, `Word.raw`, `Word.sym`, `Word.becomes` : the words there are,
  each sound;
* `spaced` : the text of words with a space between any two;
* `scan_spaced` : the text is scanned as the tokens of its words;
* `Spellable`, `Word.Spelled` : the tokens that a text can hold, and how they are written in it;
* `scan_spelled` : all of them can be written, one behind the other, and are scanned back.
-/

namespace Funclet.Scan

/-- A token with a spelling of it. -/
structure Word where
  token : Token
  chars : List Char

def Apart (rest : List Char) : Prop := ∀ d ∈ rest.head?, d = ' '

/-- Where nothing but a space follows, the spelling is read as the token. -/
def Word.Sound (escapes : Bool) (w : Word) : Prop :=
  ∀ rest, Apart rest → Reads escapes w.chars rest [] (.ok w.token)

variable {escapes : Bool}

/-! ## Words -/

theorem Apart.stops {q : Char → Bool} {rest : List Char} (h : Apart rest) (hq : q ' ' = false) : Stops q rest :=
  fun d hd => by rw [h d hd, hq]

/-- A word of letters and digits that starts with a letter. -/
theorem sound_word {c : Char} {cs : List Char} {t : Token} (hc : c.isAlpha = true)
    (hcs : ∀ d ∈ cs, d.isAlphanum = true) (ht : Means (c :: cs) t) : Word.Sound escapes ⟨t, c :: cs⟩ :=
  fun _ hrest => .word hc hcs (hrest.stops (by decide)) ht

/-- What a name may be: letters and digits, a letter first, and no reserved word. -/
structure IsName (name : String) : Prop where
  letter : name.toList.head?.any Char.isAlpha = true
  word : name.toList.all Char.isAlphanum = true
  free : Keyword.ofString? name = none

instance (name : String) : Decidable (IsName name) :=
  decidable_of_iff (name.toList.head?.any Char.isAlpha = true ∧ name.toList.all Char.isAlphanum = true ∧
    Keyword.ofString? name = none) ⟨fun h => ⟨h.1, h.2.1, h.2.2⟩, fun h => ⟨h.letter, h.word, h.free⟩⟩

def Word.ident (name : String) : Word := ⟨.ident name, name.toList⟩

theorem sound_ident {name : String} (h : IsName name) : (Word.ident name).Sound escapes := by
  obtain ⟨hletter, hword, hfree⟩ := h
  have hmeans : Means name.toList (.ident name) := by
    have htoken := means_wordToken name.toList
    rwa [wordToken, String.ofList_toList, hfree] at htoken
  unfold Word.ident
  generalize name.toList = run at hletter hword hmeans
  cases run with
  | nil => cases hletter
  | cons c cs =>
    rw [List.all_cons, Bool.and_eq_true, List.all_eq_true] at hword
    exact sound_word hletter hword.2 hmeans

def Word.key (k : Keyword) : Word := ⟨.keyword k, k.spelling.toList⟩

theorem sound_key (k : Keyword) : (Word.key k).Sound escapes := by
  unfold Word.key
  have hmeans := Means.keyword k
  have hletters : ∃ c cs, k.spelling.toList = c :: cs ∧ c.isAlpha = true ∧ cs.all Char.isAlphanum = true := by
    cases k <;> exact ⟨_, _, rfl, by decide, by decide⟩
  obtain ⟨c, cs, hspelling, hc, hcs⟩ := hletters
  rw [hspelling] at hmeans ⊢
  exact sound_word hc (List.all_eq_true.1 hcs) hmeans

/-- The characters are digits with at most one point among them, and stand for the number. -/
structure IsLiteral (run : List Char) (value : Float) : Prop where
  digit : run.head?.any Char.isDigit = true
  digits : run.all (fun d => d.isDigit || d == '.') = true
  numeral : isNumeral run = true
  value : (Decimal.ofDigits run).nearest = value

instance (run : List Char) (value : Float) : Decidable (IsLiteral run value) :=
  decidable_of_iff (run.head?.any Char.isDigit = true ∧ run.all (fun d => d.isDigit || d == '.') = true ∧
    isNumeral run = true ∧ (Decimal.ofDigits run).nearest = value)
    ⟨fun h => ⟨h.1, h.2.1, h.2.2.1, h.2.2.2⟩, fun h => ⟨h.digit, h.digits, h.numeral, h.value⟩⟩

def Word.num (run : List Char) (value : Float) : Word := ⟨.number value, run⟩

theorem sound_numeral {run : List Char} (h : Numeral run) :
    (Word.num run (Decimal.ofDigits run).nearest).Sound escapes := by
  intro rest hrest
  obtain ⟨c, cs, rfl, hc, hcs⟩ := h.digits
  exact .number hc hcs (hrest.stops (by decide)) h

theorem sound_num {run : List Char} {value : Float} (h : IsLiteral run value) : (Word.num run value).Sound escapes := by
  obtain ⟨hdigit, hdigits, hnumeral, rfl⟩ := h
  cases run with
  | nil => cases hdigit
  | cons c cs =>
    rw [List.all_cons, Bool.and_eq_true, List.all_eq_true] at hdigits
    exact sound_numeral ((isNumeral_iff hdigit hdigits.2).1 hnumeral)

def escape : List Char → List Char
  | [] => []
  | c :: cs =>
    if c = '\n' then '\\' :: 'n' :: escape cs
    else if c = '\t' then '\\' :: 't' :: escape cs
    else if c = '\\' ∨ c = '"' then '\\' :: c :: escape cs
    else c :: escape cs

theorem denotes_escape (cs : List Char) : Denotes true (escape cs) cs := by
  induction cs with
  | nil => exact .nil
  | cons c cs ih =>
    unfold escape
    split_ifs with hline htab hmark
    · exact .escape rfl (by rw [hline]; rfl) ih
    · exact .escape rfl (by rw [htab]; rfl) ih
    · exact .escape rfl (by rcases hmark with rfl | rfl <;> rfl) ih
    · obtain ⟨hslash, hquote⟩ := not_or.1 hmark
      exact .plain hline hquote (.inl hslash) ih

/-- Without escapes, all characters that a literal can hold stand for themselves. -/
theorem denotes_raw {cs : List Char} (hline : '\n' ∉ cs) (hquote : '"' ∉ cs) : Denotes false cs cs := by
  induction cs with
  | nil => exact .nil
  | cons c cs ih =>
    rw [List.mem_cons, not_or] at hline hquote
    exact .plain (Ne.symm hline.1) (Ne.symm hquote.1) (.inr rfl) (ih hline.2 hquote.2)

def Word.quoted (value : String) : Word := ⟨.text value, '"' :: escape value.toList ++ ['"']⟩

/-- A text in quotes, as it is. -/
def Word.raw (value : String) : Word := ⟨.text value, '"' :: value.toList ++ ['"']⟩

theorem sound_text {value : String} {cs : List Char} (h : Denotes escapes cs value.toList) :
    Word.Sound escapes ⟨.text value, '"' :: cs ++ ['"']⟩ := by
  intro rest _
  have hread : Reads escapes ('"' :: (cs ++ ['"'])) rest [] _ := .text (.closed h)
  rwa [String.ofList_toList] at hread

theorem sound_quoted (value : String) : (Word.quoted value).Sound true := sound_text (denotes_escape _)

theorem sound_raw {value : String} (hline : '\n' ∉ value.toList) (hquote : '"' ∉ value.toList) :
    (Word.raw value).Sound false := sound_text (denotes_raw hline hquote)

def Word.becomes : Word := ⟨.assign, [':', '=']⟩

theorem sound_becomes : Word.becomes.Sound escapes := fun _ _ => .assign

/-- A symbol other than those that start something longer. -/
structure IsSymbol (c : Char) : Prop where
  punctuation : isPunctuation c = true
  lone : c ≠ ':'
  unquoted : c ≠ '"'

def Word.sym (c : Char) : Word := ⟨.symbol c, [c]⟩

theorem sound_sym {c : Char} (h : IsSymbol c) : (Word.sym c).Sound escapes := by
  refine fun rest hrest => .symbol h.punctuation h.unquoted h.lone fun _ hslash => ?_
  cases hrest _ hslash

/-! ## Texts -/

def spaced (ws : List Word) : List Char := List.intercalate [' '] (ws.map Word.chars)

theorem spaced_cons (w : Word) (ws : List Word) : spaced (w :: ws) = w.chars ++ ws.flatMap fun v => ' ' :: v.chars := by
  induction ws generalizing w with
  | nil => simp [spaced, List.intercalate]
  | cons v ws ih =>
    rw [List.flatMap_cons, List.cons_append, ← ih]
    simp [spaced, List.intercalate]

theorem apart_following (ws : List Word) : Apart (ws.flatMap fun v => ' ' :: v.chars) := by
  cases ws with
  | nil => exact fun _ h => by cases h
  | cons w ws => exact fun _ h => (Option.some.inj h).symm

/-- A word behind a gap is the next item. -/
theorem Word.Sound.segmented {w : Word} (hw : w.Sound escapes) {skipped rest : List Char}
    (hskipped : Skipped skipped (w.chars ++ rest)) (hrest : Apart rest) {before : List Char} {items : List Item}
    (h : Segmented escapes (before ++ skipped ++ w.chars) rest items) :
    Segmented escapes before (skipped ++ w.chars ++ rest)
      (⟨placeBehind (before ++ skipped ++ []), .ok w.token⟩ :: items) := by
  refine .item hskipped ?_ (hw rest hrest) h
  intro hnil
  have hread := hw rest hrest
  rw [hnil] at hread
  cases hread

/-- Words with a space before each are split at these spaces. -/
theorem segmented_following {ws : List Word} (hws : ∀ w ∈ ws, w.Sound escapes) (before : List Char) :
    ∃ items, Segmented escapes before (ws.flatMap fun v => ' ' :: v.chars) items ∧
      items.map Item.reading = ws.map fun w => .ok w.token := by
  induction ws generalizing before with
  | nil => exact ⟨[], .done .nil, rfl⟩
  | cons w ws ih =>
    obtain ⟨hw, hws⟩ := List.forall_mem_cons.1 hws
    obtain ⟨items, hitems, hreadings⟩ := ih hws (before ++ [' '] ++ w.chars)
    refine ⟨_, hw.segmented (.blank (by decide) .nil) (apart_following ws) hitems, ?_⟩
    rw [List.map_cons, hreadings]
    rfl

/-- The text of words is scanned as their tokens. -/
theorem scan_spaced {ws : List Word} (hws : ∀ w ∈ ws, w.Sound escapes) :
    (scan escapes (String.ofList (spaced ws))).items.map Item.reading = ws.map fun w => .ok w.token := by
  have hsplit : ∃ items, Segmented escapes [] (spaced ws) items ∧
      items.map Item.reading = ws.map fun w => .ok w.token := by
    cases ws with
    | nil => exact ⟨[], .done .nil, rfl⟩
    | cons w ws =>
      obtain ⟨hw, hws⟩ := List.forall_mem_cons.1 hws
      obtain ⟨items, hitems, hreadings⟩ := segmented_following hws w.chars
      rw [spaced_cons]
      have hfirst : Skipped [] (w.chars ++ ws.flatMap fun v => ' ' :: v.chars) := .nil
      refine ⟨_, hw.segmented hfirst (apart_following ws) hitems, ?_⟩
      rw [List.map_cons, hreadings]
      rfl
  obtain ⟨items, hitems, hreadings⟩ := hsplit
  rw [scan, String.toList_ofList, ← hreadings, (segmented_iff escapes [] _ items).1 hitems]
  rfl

/-! ## Tokens -/

def Spellable (escapes : Bool) : Token → Prop
  | .ident name => IsName name
  | .number value => ∃ run, Numeral run ∧ (Decimal.ofDigits run).nearest = value
  | .text value => escapes = true ∨ '\n' ∉ value.toList ∧ '"' ∉ value.toList
  | .symbol c => IsSymbol c
  | .keyword _ | .assign => True
  | .invalid | .eof => False

/-- How tokens are written: as they are, but for the marks that a text has to escape. -/
inductive Word.Spelled (escapes : Bool) : Word → Prop
  | ident (name : String) : Spelled escapes (.ident name)
  | key (k : Keyword) : Spelled escapes (.key k)
  | num {run : List Char} (h : Numeral run) : Spelled escapes (.num run (Decimal.ofDigits run).nearest)
  | becomes : Spelled escapes .becomes
  | sym (c : Char) : Spelled escapes (.sym c)
  | quoted (hesc : escapes = true) (value : String) : Spelled escapes (.quoted value)
  | raw (hesc : escapes = false) (value : String) : Spelled escapes (.raw value)

/-- A token that a text can hold is read from what is written for it. -/
theorem Word.Spelled.sound {w : Word} (h : w.Spelled escapes) (ht : Spellable escapes w.token) : w.Sound escapes := by
  cases h with
  | ident name => exact sound_ident ht
  | key k => exact sound_key k
  | num h => exact sound_numeral h
  | becomes => exact sound_becomes
  | sym c => exact sound_sym ht
  | quoted hesc value =>
    subst hesc
    exact sound_quoted value
  | raw hesc value =>
    subst hesc
    obtain ⟨hline, hquote⟩ := ht.resolve_left (by decide)
    exact sound_raw hline hquote

/-- Each of these tokens can be written. -/
theorem exists_spelled {t : Token} (ht : Spellable escapes t) : ∃ w : Word, w.token = t ∧ w.Spelled escapes := by
  cases t with
  | ident name => exact ⟨_, rfl, .ident name⟩
  | number value =>
    obtain ⟨run, hrun, rfl⟩ := ht
    exact ⟨_, rfl, .num hrun⟩
  | text value =>
    cases escapes with
    | false => exact ⟨_, rfl, .raw rfl value⟩
    | true => exact ⟨_, rfl, .quoted rfl value⟩
  | symbol c => exact ⟨_, rfl, .sym c⟩
  | keyword k => exact ⟨_, rfl, .key k⟩
  | assign => exact ⟨_, rfl, .becomes⟩
  | invalid => cases ht
  | eof => cases ht

theorem exists_spelling {tokens : List Token} (h : ∀ t ∈ tokens, Spellable escapes t) :
    ∃ ws : List Word, ws.map Word.token = tokens ∧ ∀ w ∈ ws, w.Spelled escapes := by
  induction tokens with
  | nil => exact ⟨[], rfl, by simp⟩
  | cons t tokens ih =>
    obtain ⟨ht, htokens⟩ := List.forall_mem_cons.1 h
    obtain ⟨w, rfl, hw⟩ := exists_spelled ht
    obtain ⟨ws, rfl, hws⟩ := ih htokens
    exact ⟨w :: ws, rfl, List.forall_mem_cons.2 ⟨hw, hws⟩⟩

/-- Tokens can be written with a space between any two, and are then scanned back with no error. -/
theorem scan_spelled {tokens : List Token} (h : ∀ t ∈ tokens, Spellable escapes t) :
    (∃ ws : List Word, ws.map Word.token = tokens ∧ ∀ w ∈ ws, w.Spelled escapes) ∧
      ∀ ws : List Word, ws.map Word.token = tokens → (∀ w ∈ ws, w.Spelled escapes) →
        (scan escapes (String.ofList (spaced ws))).items.map Item.reading = tokens.map .ok := by
  refine ⟨exists_spelling h, ?_⟩
  rintro ws rfl hws
  have hsound : ∀ w ∈ ws, w.Sound escapes := fun w hw => (hws w hw).sound (h _ (List.mem_map_of_mem hw))
  rw [scan_spaced hsound, List.map_map]
  rfl

/-- Next to each other, most of these would be read as something else. -/
def clinging (text : Word) : List Word :=
  [.sym '/', .sym '/', .becomes, .sym '=', .ident "a", .num ['1', '.', '5', '0'] 1.5, .sym '.', .num ['7'] 7,
    .key .FUNC, .ident "FUNCS", text, .sym '\\']

theorem spelled_clinging {text : Word} (htext : text.Spelled escapes) (ht : Spellable escapes text.token) :
    ∀ w ∈ clinging text, w.Spelled escapes ∧ Spellable escapes w.token := by
  have hnum {run : List Char} {value : Float} (h : Numeral run) (hvalue : (Decimal.ofDigits run).nearest = value) :
      (Word.num run value).Spelled escapes ∧ Spellable escapes (.number value) := by
    subst hvalue
    exact ⟨.num h, run, h, rfl⟩
  have hhalf : Numeral (['1'] ++ '.' :: ['5', '0']) :=
    .point (by decide) (List.all_eq_true.1 rfl) (by decide) (List.all_eq_true.1 rfl)
  have hseven : Numeral ['7'] := .whole (by decide) (List.all_eq_true.1 rfl)
  have hsym : ∀ c ∈ ['/', '=', '.', '\\'], IsSymbol c := by
    simp only [List.forall_mem_cons]
    exact ⟨⟨by decide, by decide, by decide⟩, ⟨by decide, by decide, by decide⟩, ⟨by decide, by decide, by decide⟩,
      ⟨by decide, by decide, by decide⟩, by simp⟩
  simp only [clinging, List.forall_mem_cons]
  exact ⟨⟨.sym _, hsym _ (by decide)⟩, ⟨.sym _, hsym _ (by decide)⟩, ⟨.becomes, trivial⟩,
    ⟨.sym _, hsym _ (by decide)⟩, ⟨.ident _, (by decide : IsName "a")⟩, hnum hhalf (by decide +kernel),
    ⟨.sym _, hsym _ (by decide)⟩, hnum hseven (by decide +kernel), ⟨.key _, trivial⟩,
    ⟨.ident _, (by decide : IsName "FUNCS")⟩, ⟨htext, ht⟩, ⟨.sym _, hsym _ (by decide)⟩, by simp⟩

/-- The two modes differ in the text alone: a line end and marks to escape, or a backslash before the closing quote. -/
theorem scan_spelled_clinging :
    (scan true "/ / := = a 1.50 . 7 FUNC FUNCS \"\\\\\\n\\\"\\t\" \\").items.map Item.reading =
        ((clinging (.quoted "\\\n\"\t")).map Word.token).map .ok ∧
      (scan false "/ / := = a 1.50 . 7 FUNC FUNCS \"\t\\\" \\").items.map Item.reading =
        ((clinging (.raw "\t\\")).map Word.token).map .ok := by
  have hquoted := spelled_clinging (.quoted rfl "\\\n\"\t") (.inl rfl)
  have hraw := spelled_clinging (.raw rfl "\t\\") (.inr (by decide))
  constructor
  · have htext : String.ofList (spaced (clinging (.quoted "\\\n\"\t"))) =
        "/ / := = a 1.50 . 7 FUNC FUNCS \"\\\\\\n\\\"\\t\" \\" := by decide +kernel
    rw [← htext]
    exact (scan_spelled (List.forall_mem_map.2 fun w hw => (hquoted w hw).2)).2 _ rfl fun w hw => (hquoted w hw).1
  · have htext : String.ofList (spaced (clinging (.raw "\t\\"))) =
        "/ / := = a 1.50 . 7 FUNC FUNCS \"\t\\\" \\" := by decide +kernel
    rw [← htext]
    exact (scan_spelled (List.forall_mem_map.2 fun w hw => (hraw w hw).2)).2 _ rfl fun w hw => (hraw w hw).1

end Funclet.Scan
