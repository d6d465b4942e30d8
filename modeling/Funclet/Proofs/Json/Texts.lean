import Mathlib.Data.List.TakeWhile
import Funclet.Proofs.Json.Strings

/-!
# JSON texts

* `Json.Numeral` : how numbers are written;
* `Json.Text φ cs` : the grammar of JSON as a relation between trees and texts, with blanks wherever they may stand and
  each string spelled in any way; `Json.Document` : the same for a whole text;
* `Text.read`, `Document.ofText?` : every text of a tree is read as that tree;
* `Printed` : what is written for a tree, on many lines, is one of its texts, if it has any (`Text.printed`);
* `text_ofNat`, `text_string`, `text_object` : trees that have texts.
-/

namespace Funclet.Json

/-! ## Blanks -/

def Blanks (cs : List Char) : Prop := ∀ c ∈ cs, isBlank c = true

theorem blanks_nil : Blanks [] := fun c hc => by cases hc

theorem Blanks.skipBlanks {b : List Char} (hb : Blanks b) (cs : List Char) :
    Json.skipBlanks (b ++ cs) = Json.skipBlanks cs := by
  unfold Json.skipBlanks
  exact List.dropWhile_append_of_pos hb

theorem skipBlanks_cons {c : Char} (hc : isBlank c = false) (cs : List Char) : skipBlanks (c :: cs) = c :: cs := by
  simp [skipBlanks, hc]

/-! ## Numbers -/

def Digits (ds : List Char) : Prop := ds ≠ [] ∧ ∀ c ∈ ds, c.isDigit = true

inductive Fraction : List Char → Prop
  | absent : Fraction []
  | present {ds : List Char} (h : Digits ds) : Fraction ('.' :: ds)

inductive Exponent : List Char → Prop
  | absent : Exponent []
  | present {e : Char} {sign ds : List Char} (he : e = 'e' ∨ e = 'E') (hsign : sign = [] ∨ sign = ['+'] ∨ sign = ['-'])
    (h : Digits ds) : Exponent (e :: (sign ++ ds))

/-- A sign or none, digits without a needless zero in front, a fraction and an exponent. -/
inductive Numeral : List Char → Prop
  | mk {sign whole fraction exponent : List Char} (hsign : sign = [] ∨ sign = ['-']) (hwhole : Digits whole)
    (hzero : whole.head? = some '0' → whole = ['0']) (hfraction : Fraction fraction) (hexponent : Exponent exponent) :
    Numeral (sign ++ (whole ++ (fraction ++ exponent)))

/-- Nothing at the front carries a number on. -/
def Ends (rest : List Char) : Prop := ∀ c ∈ rest.head?, c.isDigit = false ∧ c ≠ '.' ∧ c ≠ 'e' ∧ c ≠ 'E'

theorem ends_nil : Ends [] := fun c hc => by cases hc

theorem ends_cons {c : Char} (hc : c.isDigit = false ∧ c ≠ '.' ∧ c ≠ 'e' ∧ c ≠ 'E') (cs : List Char) :
    Ends (c :: cs) := by
  intro d hd
  cases hd
  exact hc

theorem Blanks.ends {b rest : List Char} (hb : Blanks b) (h : Ends rest) : Ends (b ++ rest) := by
  cases b with
  | nil => exact h
  | cons c b =>
    have hc := hb c List.mem_cons_self
    refine ends_cons ?_ _
    simp only [isBlank, Bool.or_eq_true, beq_iff_eq] at hc
    rcases hc with ((rfl | rfl) | rfl) | rfl <;> decide

theorem Digits.digits? {ds rest : List Char} (h : Digits ds) (hrest : ∀ c ∈ rest.head?, c.isDigit = false) :
    Json.digits? (ds ++ rest) = some (ds, rest) := by
  have hstop : rest.takeWhile Char.isDigit = [] ∧ rest.dropWhile Char.isDigit = rest := by
    cases rest with
    | nil => exact ⟨rfl, rfl⟩
    | cons c rest => simp [hrest c rfl]
  unfold Json.digits?
  rw [List.takeWhile_append_of_pos h.2, List.dropWhile_append_of_pos h.2, hstop.1, hstop.2]
  simp [h.1]

theorem Digits.exists_cons {ds : List Char} (h : Digits ds) : ∃ d ds', ds = d :: ds' ∧ d.isDigit = true := by
  obtain ⟨hne, hall⟩ := h
  cases ds with
  | nil => exact absurd rfl hne
  | cons d ds => exact ⟨d, ds, rfl, hall d List.mem_cons_self⟩

theorem ne_of_isDigit {c d : Char} (hc : c.isDigit = true) (hd : d.isDigit = false) : c ≠ d := by
  rintro rfl
  exact Bool.false_ne_true (hd.symm.trans hc)

theorem Digits.whole? {ds rest : List Char} (h : Digits ds) (hzero : ds.head? = some '0' → ds = ['0'])
    (hrest : ∀ c ∈ rest.head?, c.isDigit = false) : Json.whole? (ds ++ rest) = some (ds, rest) := by
  unfold Json.whole?
  rw [h.digits? hrest]
  exact if_neg fun hbad => hbad.2 (hzero hbad.1)

theorem Fraction.fraction? {cs rest : List Char} (h : Fraction cs)
    (hrest : ∀ c ∈ rest.head?, c.isDigit = false ∧ c ≠ '.') : Json.fraction? (cs ++ rest) = some (cs, rest) := by
  cases h with
  | absent =>
    cases rest with
    | nil => rfl
    | cons c rest => simp [Json.fraction?, (hrest c rfl).2]
  | present h => simp [Json.fraction?, h.digits? fun c hc => (hrest c hc).1]

theorem Exponent.exponent? {cs rest : List Char} (h : Exponent cs) (hrest : Ends rest) :
    Json.exponent? (cs ++ rest) = some (cs, rest) := by
  cases h with
  | absent =>
    cases rest with
    | nil => rfl
    | cons c rest => exact if_neg fun hc => hc.elim (hrest c rfl).2.2.1 (hrest c rfl).2.2.2
  | present he hsign h =>
    have hdigits := h.digits? fun c hc => (hrest c hc).1
    rcases hsign with rfl | rfl | rfl
    · obtain ⟨d, ds, rfl, hd⟩ := h.exists_cons
      have hplus := ne_of_isDigit hd (show '+'.isDigit = false by decide)
      have hminus := ne_of_isDigit hd (show '-'.isDigit = false by decide)
      rw [List.cons_append] at hdigits
      simp [Json.exponent?, he, hplus, hminus, hdigits]
    · simp [Json.exponent?, he, hdigits]
    · simp [Json.exponent?, he, hdigits]

/-- All of a number is read, up to where it ends. -/
theorem Numeral.number? {cs rest : List Char} (h : Numeral cs) (hrest : Ends rest) :
    Json.number? (cs ++ rest) = some (cs, rest) := by
  obtain @⟨sign, whole, fraction, exponent, hsign, hwhole, hzero, hfraction, hexponent⟩ := h
  have hbehind : ∀ c ∈ (exponent ++ rest).head?, c.isDigit = false ∧ c ≠ '.' := by
    cases hexponent with
    | absent => exact fun c hc => ⟨(hrest c hc).1, (hrest c hc).2.1⟩
    | present he _ _ =>
      rintro c ⟨⟩
      rcases he with rfl | rfl <;> decide
  have hpoint : ∀ c ∈ (fraction ++ (exponent ++ rest)).head?, c.isDigit = false := by
    cases hfraction with
    | absent => exact fun c hc => (hbehind c hc).1
    | present _ =>
      rintro c ⟨⟩
      decide
  have hw := hwhole.whole? hzero hpoint
  have hf := hfraction.fraction? hbehind
  have he := hexponent.exponent? hrest
  rcases hsign with rfl | rfl
  · obtain ⟨d, ds, rfl, hd⟩ := hwhole.exists_cons
    have hminus := ne_of_isDigit hd (show '-'.isDigit = false by decide)
    rw [List.cons_append] at hw
    simp [Json.number?, hminus, hw, hf, he]
  · simp [Json.number?, hw, hf, he]

/-! ## The grammar -/

/-- What a part of a text can be of. -/
inductive Phrase where
  | value (j : Json)
  | elems (es : List Json)
  | members (ms : List Member)

/-- The text of a member: its key between quotes, a colon, and the text of its value. -/
def memberText (key b b' value : List Char) : List Char := '"' :: (key ++ '"' :: (b ++ ':' :: (b' ++ value)))

/-- The characters are a text of the phrase: of a value, or of what stands between the brackets of a list or an
object. -/
inductive Text : Phrase → List Char → Prop
  | null : Text (.value .null) ['n', 'u', 'l', 'l']
  | boolTrue : Text (.value (.bool true)) ['t', 'r', 'u', 'e']
  | boolFalse : Text (.value (.bool false)) ['f', 'a', 'l', 's', 'e']
  | number {cs : List Char} (h : Numeral cs) : Text (.value (.number (String.ofList cs))) cs
  | string {sp s : List Char} (h : Spells sp s) : Text (.value (.string (String.ofList sp))) ('"' :: (sp ++ ['"']))
  | noElems {b : List Char} (hb : Blanks b) : Text (.value (.array [])) ('[' :: (b ++ [']']))
  | array {es : List Json} {cs : List Char} (h : Text (.elems es) cs) : Text (.value (.array es)) ('[' :: (cs ++ [']']))
  | noMembers {b : List Char} (hb : Blanks b) : Text (.value (.object [])) ('\x7b' :: (b ++ ['\x7d']))
  | object {ms : List Member} {cs : List Char} (h : Text (.members ms) cs) :
    Text (.value (.object ms)) ('\x7b' :: (cs ++ ['\x7d']))
  | lastElem {e : Json} {b cs b' : List Char} (hb : Blanks b) (h : Text (.value e) cs) (hb' : Blanks b') :
    Text (.elems [e]) (b ++ (cs ++ b'))
  | elem {e : Json} {es : List Json} {b cs b' ds : List Char} (hb : Blanks b) (h : Text (.value e) cs) (hb' : Blanks b')
    (hes : Text (.elems es) ds) : Text (.elems (e :: es)) (b ++ (cs ++ (b' ++ ',' :: ds)))
  | lastMember {j : Json} {key s b b₁ b₂ cs b' : List Char} (hkey : Spells key s) (hb : Blanks b) (hb₁ : Blanks b₁)
    (hb₂ : Blanks b₂) (h : Text (.value j) cs) (hb' : Blanks b') :
    Text (.members [⟨String.ofList key, j⟩]) (b ++ (memberText key b₁ b₂ cs ++ b'))
  | member {j : Json} {ms : List Member} {key s b b₁ b₂ cs b' ds : List Char} (hkey : Spells key s) (hb : Blanks b)
    (hb₁ : Blanks b₁) (hb₂ : Blanks b₂) (h : Text (.value j) cs) (hb' : Blanks b') (hms : Text (.members ms) ds) :
    Text (.members (⟨String.ofList key, j⟩ :: ms)) (b ++ (memberText key b₁ b₂ cs ++ (b' ++ ',' :: ds)))

/-- A whole text of the tree: blanks may stand around it. -/
inductive Document (j : Json) (text : String) : Prop
  | mk {b cs b' : List Char} (hb : Blanks b) (h : Text (.value j) cs) (hb' : Blanks b')
    (htext : text.toList = b ++ (cs ++ b'))

/-! ## Reading -/

/-- A number starts with a digit or a sign. -/
theorem Numeral.exists_cons {cs : List Char} (h : Numeral cs) :
    ∃ c cs', cs = c :: cs' ∧ (c.isDigit = true ∨ c = '-') := by
  obtain ⟨hsign, hwhole, -, -, -⟩ := h
  rcases hsign with rfl | rfl
  · obtain ⟨d, ds, rfl, hd⟩ := hwhole.exists_cons
    exact ⟨d, _, rfl, .inl hd⟩
  · exact ⟨'-', _, rfl, .inr rfl⟩

/-- A value starts with a character that is no blank and closes nothing. -/
theorem Text.exists_cons {j : Json} {cs : List Char} (h : Text (.value j) cs) :
    ∃ c cs', cs = c :: cs' ∧ isBlank c = false ∧ c ≠ ']' := by
  cases h with
  | number h =>
    obtain ⟨c, cs', rfl, hc⟩ := h.exists_cons
    have hne (d : Char) (hd : d.isDigit = false ∧ '-' ≠ d) : c ≠ d := by
      rcases hc with hc | rfl
      · exact ne_of_isDigit hc hd.1
      · exact hd.2
    refine ⟨c, cs', rfl, ?_, hne ']' (by decide)⟩
    simp [isBlank, hne ' ' (by decide), hne '\t' (by decide), hne '\n' (by decide), hne '\r' (by decide)]
  | _ => exact ⟨_, _, rfl, by decide, by decide⟩

variable {n : Nat} {cs ds rest key : List Char} {j : Json} {es : List Json} {ms : List Member}

theorem value?_number (h : Numeral cs) (hrest : Ends rest) :
    value? (n + 1) (cs ++ rest) = some (.number (String.ofList cs), rest) := by
  obtain ⟨c, cs', rfl, hc⟩ := h.exists_cons
  have hnumber := h.number? hrest
  rw [List.cons_append] at hnumber ⊢
  rw [value?]
  · rw [hnumber]
    rfl
  all_goals
    intros
    simp_all

theorem value?_string {sp s : List Char} (h : Spells sp s) :
    value? (n + 1) ('"' :: (sp ++ '"' :: rest)) = some (.string (String.ofList sp), rest) := by
  simp [value?, h.spelling?]

theorem value?_array (hne : ∀ ds, skipBlanks cs ≠ ']' :: ds) (h : elems? n (skipBlanks cs) = some (es, rest)) :
    value? (n + 1) ('[' :: cs) = some (.array es, rest) := by
  simp [value?, h]

theorem value?_object (hne : ∀ ds, skipBlanks cs ≠ '\x7d' :: ds) (h : members? n (skipBlanks cs) = some (ms, rest)) :
    value? (n + 1) ('\x7b' :: cs) = some (.object ms, rest) := by
  simp [value?, h]

theorem elems?_last (h : value? n cs = some (j, ds)) (hds : skipBlanks ds = ']' :: rest) :
    elems? (n + 1) cs = some ([j], rest) := by
  simp [elems?, h, hds]

theorem elems?_cons (h : value? n cs = some (j, ds)) {ds' : List Char} (hds : skipBlanks ds = ',' :: ds')
    (hes : elems? n (skipBlanks ds') = some (es, rest)) : elems? (n + 1) cs = some (j :: es, rest) := by
  simp [elems?, h, hds, hes]

/-- Blanks before a value are skipped, and nothing of the value. -/
theorem Text.skipBlanks {b : List Char} (h : Text (.value j) cs) (hb : Blanks b) (rest : List Char) :
    Json.skipBlanks (b ++ (cs ++ rest)) = cs ++ rest := by
  obtain ⟨c, cs', rfl, hc, -⟩ := h.exists_cons
  rw [hb.skipBlanks]
  exact skipBlanks_cons hc _

theorem Blanks.skip_cons {b : List Char} (hb : Blanks b) {c : Char} (hc : isBlank c = false) (rest : List Char) :
    Json.skipBlanks (b ++ c :: rest) = c :: rest := by
  rw [hb.skipBlanks, skipBlanks_cons hc]

section Members

variable {s b₁ b₂ : List Char} (hkey : Spells key s) (hb₁ : Blanks b₁) (hb₂ : Blanks b₂) (htext : Text (.value j) cs)
include hkey hb₁ hb₂ htext

theorem members?_last (h : value? n (cs ++ ds) = some (j, ds)) (hds : skipBlanks ds = '\x7d' :: rest) :
    members? (n + 1) (memberText key b₁ b₂ cs ++ ds) = some ([⟨String.ofList key, j⟩], rest) := by
  have hcolon (xs) : skipBlanks (b₁ ++ ':' :: xs) = ':' :: xs := hb₁.skip_cons (by decide) xs
  simp [memberText, members?, hkey.spelling?, hcolon, htext.skipBlanks hb₂, h, hds]

theorem members?_cons (h : value? n (cs ++ ds) = some (j, ds)) {ds' : List Char} (hds : skipBlanks ds = ',' :: ds')
    (hms : members? n (skipBlanks ds') = some (ms, rest)) :
    members? (n + 1) (memberText key b₁ b₂ cs ++ ds) = some (⟨String.ofList key, j⟩ :: ms, rest) := by
  have hcolon (xs) : skipBlanks (b₁ ++ ':' :: xs) = ':' :: xs := hb₁.skip_cons (by decide) xs
  simp [memberText, members?, hkey.spelling?, hcolon, htext.skipBlanks hb₂, h, hds, hms]

end Members

/-- What is made of the text of a phrase, whatever follows it. The length of the text is fuel enough, since every value
and every comma has a character of its own. -/
def IsRead : Phrase → List Char → Prop
  | .value j, cs => ∀ n rest, cs.length ≤ n → Ends rest → value? n (cs ++ rest) = some (j, rest)
  | .elems es, cs => ∀ n rest, cs.length < n → elems? n (skipBlanks (cs ++ ']' :: rest)) = some (es, rest)
  | .members ms, cs => ∀ n rest, cs.length < n → members? n (skipBlanks (cs ++ '\x7d' :: rest)) = some (ms, rest)

theorem Text.elems_ne {es : List Json} (h : Text (.elems es) cs) (rest ds : List Char) :
    Json.skipBlanks (cs ++ rest) ≠ ']' :: ds := by
  have hvalue {e : Json} {b cs tail : List Char} (hb : Blanks b) (h : Text (.value e) cs) :
      Json.skipBlanks (b ++ (cs ++ tail)) ≠ ']' :: ds := by
    obtain ⟨c, cs', rfl, -, hc⟩ := h.exists_cons
    rw [h.skipBlanks hb]
    exact fun heq => hc (List.cons.inj heq).1
  cases h with
  | lastElem hb h _ =>
    rw [List.append_assoc, List.append_assoc]
    exact hvalue hb h
  | elem hb h _ _ =>
    rw [List.append_assoc, List.append_assoc]
    exact hvalue hb h

theorem memberText_skip {b b₁ b₂ : List Char} (hb : Blanks b) (rest : List Char) :
    skipBlanks (b ++ (memberText key b₁ b₂ cs ++ rest)) = memberText key b₁ b₂ cs ++ rest :=
  hb.skip_cons (by decide) _

theorem Text.members_ne {ms : List Member} (h : Text (.members ms) cs) (rest ds : List Char) :
    Json.skipBlanks (cs ++ rest) ≠ '\x7d' :: ds := by
  cases h with
  | lastMember _ hb _ _ _ _ =>
    rw [List.append_assoc, List.append_assoc, memberText_skip hb]
    exact fun heq => absurd (List.cons.inj heq).1 (by decide)
  | member _ hb _ _ _ _ _ =>
    rw [List.append_assoc, List.append_assoc, memberText_skip hb]
    exact fun heq => absurd (List.cons.inj heq).1 (by decide)

/-- Every text of a phrase is read as that phrase. -/
theorem Text.read {φ : Phrase} {cs : List Char} (h : Text φ cs) : IsRead φ cs := by
  induction h with
  | null | boolTrue | boolFalse =>
    rintro (_ | n) rest hn -
    · cases hn
    · rfl
  | number h =>
    rintro (_ | n) rest hn hrest
    · obtain ⟨c, cs', rfl, -⟩ := h.exists_cons
      cases hn
    · exact value?_number h hrest
  | string h =>
    rintro (_ | n) rest hn -
    · cases hn
    · rw [List.cons_append, List.append_assoc]
      exact value?_string h
  | noElems hb =>
    rintro (_ | n) rest hn -
    · cases hn
    · simp [value?, hb.skipBlanks, skipBlanks_cons (show isBlank ']' = false by decide)]
  | noMembers hb =>
    rintro (_ | n) rest hn -
    · cases hn
    · simp [value?, hb.skipBlanks, skipBlanks_cons (show isBlank '\x7d' = false by decide)]
  | array h ih =>
    rintro (_ | n) rest hn -
    · cases hn
    · simp only [List.length_cons, List.length_append, List.length_nil] at hn
      rw [List.cons_append, List.append_assoc]
      exact value?_array (h.elems_ne _) (ih n rest (by omega))
  | object h ih =>
    rintro (_ | n) rest hn -
    · cases hn
    · simp only [List.length_cons, List.length_append, List.length_nil] at hn
      rw [List.cons_append, List.append_assoc]
      exact value?_object (h.members_ne _) (ih n rest (by omega))
  | lastElem hb h hb' ih =>
    rintro (_ | n) rest hn
    · cases hn
    · simp only [List.length_append] at hn
      rw [List.append_assoc, List.append_assoc, h.skipBlanks hb]
      exact elems?_last (ih n _ (by omega) (hb'.ends (ends_cons (by decide) _))) (hb'.skip_cons (by decide) rest)
  | elem hb h hb' _ ih ihes =>
    rintro (_ | n) rest hn
    · cases hn
    · simp only [List.length_append, List.length_cons] at hn
      rw [List.append_assoc, List.append_assoc, List.append_assoc, h.skipBlanks hb]
      exact elems?_cons (ih n _ (by omega) (hb'.ends (ends_cons (by decide) _))) (hb'.skip_cons (by decide) _)
        (ihes n rest (by omega))
  | lastMember hkey hb hb₁ hb₂ h hb' ih =>
    rintro (_ | n) rest hn
    · cases hn
    · simp only [List.length_append, memberText, List.length_cons] at hn
      rw [List.append_assoc, List.append_assoc, memberText_skip hb]
      exact members?_last hkey hb₁ hb₂ h (ih n _ (by omega) (hb'.ends (ends_cons (by decide) _)))
        (hb'.skip_cons (by decide) rest)
  | member hkey hb hb₁ hb₂ h hb' _ ih ihms =>
    rintro (_ | n) rest hn
    · cases hn
    · simp only [List.length_append, memberText, List.length_cons] at hn
      rw [List.append_assoc, List.append_assoc, List.append_assoc, memberText_skip hb]
      exact members?_cons hkey hb₁ hb₂ h (ih n _ (by omega) (hb'.ends (ends_cons (by decide) _)))
        (hb'.skip_cons (by decide) _) (ihms n rest (by omega))

theorem Document.ofText? {text : String} (h : Document j text) : Json.ofText? text = some j := by
  obtain @⟨b, cs, b', hb, h, hb', htext⟩ := h
  have hlength : cs.length ≤ 2 * text.toList.length + 2 := by
    simp only [htext, List.length_append]
    omega
  have hends : Ends b' := by simpa using hb'.ends ends_nil
  have hblank : skipBlanks b' = [] := by simpa [skipBlanks] using hb'.skipBlanks []
  unfold Json.ofText?
  dsimp only
  rw [htext, h.skipBlanks hb, ← htext, h.read _ _ hlength hends]
  exact if_pos hblank

/-! ## Writing -/

theorem blanks_newline (level : Nat) : Blanks (newline level).toList := by
  intro c hc
  simp [newline] at hc
  rcases hc with rfl | ⟨-, rfl⟩ <;> decide

theorem blanks_space : Blanks [' '] := by simp [Blanks, isBlank]

/-- What is written for the phrase is one of its texts, at any level. Blanks may follow what stands between brackets. -/
def Printed : Phrase → Prop
  | .value j => ∀ level, Text (.value j) (prettyAt j level).toList
  | .elems es => ∀ level b, Blanks b → Text (.elems es) ((prettyElems es level).toList ++ b)
  | .members ms => ∀ level b, Blanks b → Text (.members ms) ((prettyMembers ms level).toList ++ b)

theorem printed_array {es : List Json} {cs : List Char} (h : Text (.elems es) cs) (hes : Printed (.elems es)) :
    Printed (.value (.array es)) := by
  intro level
  have htext := Text.array (hes (level + 1) _ (blanks_newline level))
  cases h <;> simpa [prettyAt] using htext

theorem printed_object {ms : List Member} {cs : List Char} (h : Text (.members ms) cs) (hms : Printed (.members ms)) :
    Printed (.value (.object ms)) := by
  intro level
  have htext := Text.object (hms (level + 1) _ (blanks_newline level))
  cases h <;> simpa [prettyAt] using htext

theorem printed_elem {e : Json} {es : List Json} {cs : List Char} (he : Printed (.value e)) (h : Text (.elems es) cs)
    (hes : Printed (.elems es)) : Printed (.elems (e :: es)) := by
  intro level b hb
  have htext := Text.elem (blanks_newline level) (he level) blanks_nil (hes level b hb)
  cases h <;> simpa [prettyElems] using htext

theorem printed_member {key s : List Char} {j : Json} {ms : List Member} {cs : List Char} (hkey : Spells key s)
    (hj : Printed (.value j)) (h : Text (.members ms) cs) (hms : Printed (.members ms)) :
    Printed (.members (⟨String.ofList key, j⟩ :: ms)) := by
  intro level b hb
  have htext := Text.member hkey (blanks_newline level) blanks_nil blanks_space (hj level) blanks_nil (hms level b hb)
  cases h <;> simpa [prettyMembers, memberText] using htext

/-- Whatever has a text is written as one. -/
theorem Text.printed {φ : Phrase} {cs : List Char} (h : Text φ cs) : Printed φ := by
  induction h with
  | null =>
    intro level
    simpa [prettyAt, compact] using Text.null
  | boolTrue =>
    intro level
    simpa [prettyAt, compact] using Text.boolTrue
  | boolFalse =>
    intro level
    simpa [prettyAt, compact] using Text.boolFalse
  | number h =>
    intro level
    simpa [prettyAt, compact] using Text.number h
  | string h =>
    intro level
    simpa [prettyAt, compact] using Text.string h
  | noElems _ =>
    intro level
    simpa [prettyAt, compact, compactElems] using Text.noElems blanks_nil
  | noMembers _ =>
    intro level
    simpa [prettyAt, compact, compactMembers] using Text.noMembers blanks_nil
  | array h ih => exact printed_array h ih
  | object h ih => exact printed_object h ih
  | lastElem _ _ _ ih =>
    intro level b hb
    simpa [prettyElems] using Text.lastElem (blanks_newline level) (ih level) hb
  | elem _ _ _ h ih ihes => exact printed_elem ih h ihes
  | lastMember hkey _ _ _ _ _ ih =>
    intro level b hb
    simpa [prettyMembers, memberText] using
      Text.lastMember hkey (blanks_newline level) blanks_nil blanks_space (ih level) hb
  | member hkey _ _ _ _ _ h ih ihms => exact printed_member hkey ih h ihms

theorem Document.pretty {text : String} (h : Document j text) : Document j j.pretty := by
  obtain ⟨-, h, -, -⟩ := h
  exact ⟨blanks_nil, h.printed 0, blanks_nil, by simp [Json.pretty]⟩

/-! ## Texts of trees -/

/-- A tree with a text of its own is a whole text. -/
theorem Text.document {cs : List Char} (h : Text (.value j) cs) : Document j (String.ofList cs) :=
  ⟨blanks_nil, h, blanks_nil, by simp⟩

/-- No zero stands in front of other digits. -/
theorem eq_of_head_toDigits {n : Nat} (h : (Nat.toDigits 10 n).head? = some '0') : Nat.toDigits 10 n = ['0'] := by
  induction n using Nat.strongRecOn with
  | ind n ih =>
    by_cases hn : n < 10
    · rw [Nat.toDigits_of_lt_base hn] at h ⊢
      rw [Option.some.inj h]
    · obtain ⟨d, ds, hd⟩ := List.exists_cons_of_ne_nil (Nat.toDigits_ne_nil (n := n / 10) (b := 10))
      rw [Nat.toDigits_of_base_le (by decide) (Nat.le_of_not_lt hn), hd, List.cons_append, List.head?_cons] at h
      have hhead : (Nat.toDigits 10 (n / 10)).head? = some '0' := by rw [hd, List.head?_cons, h]
      have hzero := ih (n / 10) (by omega) hhead
      have hval : n / 10 = 0 := calc
        n / 10 = Nat.ofDigitChars 10 (Nat.toDigits 10 (n / 10)) 0 := Nat.ofDigitChars_ten_toDigits.symm
        _ = Nat.ofDigitChars 10 ['0'] 0 := by rw [hzero]
        _ = 0 := by decide
      omega

/-- Natural numbers are written as JSON has it. -/
theorem numeral_toString (n : Nat) : Numeral (toString n).toList := by
  have hdigits : Digits (Nat.toDigits 10 n) :=
    ⟨Nat.toDigits_ne_nil, fun _ => Nat.isDigit_of_mem_toDigits (by decide) (by decide)⟩
  have h := Numeral.mk (.inl rfl) hdigits eq_of_head_toDigits .absent .absent
  rw [Nat.toString_eq_ofList_toDigits, String.toList_ofList]
  simpa using h

theorem text_ofNat (n : Nat) : Text (.value (ofNat n)) (toString n).toList := by
  have h := Text.number (numeral_toString n)
  rwa [String.ofList_toList] at h

theorem text_bool (b : Bool) : ∃ cs, Text (.value (.bool b)) cs := by
  cases b with
  | true => exact ⟨_, .boolTrue⟩
  | false => exact ⟨_, .boolFalse⟩

theorem text_string {sp s : String} (h : Spells sp.toList s.toList) : ∃ cs, Text (.value (.string sp)) cs := by
  have htext := Text.string h
  rw [String.ofList_toList] at htext
  exact ⟨_, htext⟩

/-- An object has a text if all of its keys spell something and all of its values have a text. -/
theorem text_object {ms : List Member} (h : ∀ m ∈ ms, (∃ s, Spells m.key.toList s) ∧ ∃ cs, Text (.value m.value) cs) :
    ∃ cs, Text (.value (.object ms)) cs := by
  suffices hms : ms = [] ∨ ∃ cs, Text (.members ms) cs by
    rcases hms with rfl | ⟨cs, hcs⟩
    · exact ⟨_, .noMembers blanks_nil⟩
    · exact ⟨_, .object hcs⟩
  induction ms with
  | nil => exact .inl rfl
  | cons m ms ih =>
    obtain ⟨⟨⟨s, hkey⟩, cs, hcs⟩, hrest⟩ := List.forall_mem_cons.1 h
    obtain ⟨key, j⟩ := m
    rw [← String.ofList_toList (s := key)]
    refine .inr ?_
    rcases ih hrest with rfl | ⟨ds, hds⟩
    · exact ⟨_, .lastMember hkey blanks_nil blanks_nil blanks_nil hcs blanks_nil⟩
    · exact ⟨_, .member hkey blanks_nil blanks_nil blanks_nil hcs blanks_nil hds⟩

end Funclet.Json
