import Funclet.Text.Quoted

/-!
# Texts that can be told apart

* `append_eq_append_of_head`, `append_eq_append_of_last` : where one part of a list ends and the next begins, if all
  items of the one are of a kind that the nearest item of the other is not;
* `flatten_inj` : blocks, each of which has a head of a kind that occurs nowhere else in it;
* `toString_append_inj`, `append_toString_inj` : a number next to what is no digit;
* `OneLine t` : the text has no line end in it; `join_lines_inj` : lines, each with its end;
* `quote_inj`, `oneLine_quote` : quoted text is on one line, and every text has quotes of its own.
-/

namespace Funclet

section Lists

variable {α : Type}

/-- Equal lists are cut at the same place if all is of the kind `P` in front of the cut, and the first item behind it
is not. -/
theorem append_eq_append_of_head (P : α → Prop) {xs ys as bs : List α} (hx : ∀ x ∈ xs, P x) (hy : ∀ y ∈ ys, P y)
    (ha : ∀ a ∈ as.head?, ¬ P a) (hb : ∀ b ∈ bs.head?, ¬ P b) (h : xs ++ as = ys ++ bs) : xs = ys ∧ as = bs := by
  induction xs generalizing ys with
  | nil =>
    cases ys with
    | nil => exact ⟨rfl, h⟩
    | cons y ys =>
      obtain rfl : as = y :: (ys ++ bs) := h
      exact absurd (hy y List.mem_cons_self) (ha y rfl)
  | cons x xs ih =>
    cases ys with
    | nil =>
      obtain rfl : x :: (xs ++ as) = bs := h
      exact absurd (hx x List.mem_cons_self) (hb x rfl)
    | cons y ys =>
      obtain ⟨rfl, htail⟩ := List.cons.inj h
      obtain ⟨rfl, rfl⟩ :=
        ih (fun z hz => hx z (List.mem_cons_of_mem _ hz)) (fun z hz => hy z (List.mem_cons_of_mem _ hz)) htail
      exact ⟨rfl, rfl⟩

/-- So it is if all is of the kind `P` behind the cut, and the last item in front of it is not. -/
theorem append_eq_append_of_last (P : α → Prop) {xs ys as bs : List α} (hx : ∀ x ∈ xs, P x) (hy : ∀ y ∈ ys, P y)
    (ha : ∀ a ∈ as.getLast?, ¬ P a) (hb : ∀ b ∈ bs.getLast?, ¬ P b) (h : as ++ xs = bs ++ ys) : as = bs ∧ xs = ys := by
  have hrev := congrArg List.reverse h
  rw [List.reverse_append, List.reverse_append] at hrev
  obtain ⟨hxs, has⟩ := append_eq_append_of_head P (fun x hx' => hx x (List.mem_reverse.1 hx'))
    (fun y hy' => hy y (List.mem_reverse.1 hy')) (by rwa [List.head?_reverse]) (by rwa [List.head?_reverse]) hrev
  exact ⟨List.reverse_inj.1 has, List.reverse_inj.1 hxs⟩

/-- A block whose first item is of the kind `H`, unlike all the others. -/
def Headed (H : α → Prop) (block : List α) : Prop := ∃ head rest, block = head :: rest ∧ H head ∧ ∀ x ∈ rest, ¬ H x

theorem Headed.head_flatten {H : α → Prop} {blocks : List (List α)} (h : ∀ b ∈ blocks, Headed H b) :
    ∀ x ∈ blocks.flatten.head?, H x := by
  cases blocks with
  | nil => exact fun _ hx => by cases hx
  | cons b blocks =>
    obtain ⟨head, rest, rfl, hhead, -⟩ := h b List.mem_cons_self
    intro x hx
    cases hx
    exact hhead

/-- Such blocks can be told apart when they stand one after the other. -/
theorem flatten_inj {H : α → Prop} {bs cs : List (List α)} (hb : ∀ b ∈ bs, Headed H b) (hc : ∀ c ∈ cs, Headed H c)
    (h : bs.flatten = cs.flatten) : bs = cs := by
  induction bs generalizing cs with
  | nil =>
    cases cs with
    | nil => rfl
    | cons c cs =>
      obtain ⟨head, rest, rfl, -⟩ := hc c List.mem_cons_self
      cases h
  | cons b bs ih =>
    obtain ⟨head, rest, rfl, -, hrest⟩ := hb b List.mem_cons_self
    cases cs with
    | nil => cases h
    | cons c cs =>
      obtain ⟨head', rest', rfl, -, hrest'⟩ := hc c List.mem_cons_self
      have hbs : ∀ b ∈ bs, Headed H b := fun b h => hb b (List.mem_cons_of_mem _ h)
      have hcs : ∀ c ∈ cs, Headed H c := fun c h => hc c (List.mem_cons_of_mem _ h)
      obtain ⟨rfl, htail⟩ := List.cons.inj h
      obtain ⟨rfl, hrec⟩ := append_eq_append_of_head (¬ H ·) hrest hrest'
        (fun x hx => not_not_intro (Headed.head_flatten hbs x hx))
        (fun x hx => not_not_intro (Headed.head_flatten hcs x hx)) htail
      rw [ih hbs hcs hrec]

end Lists

section Texts

variable (P : Char → Prop) {s t u v : String}

theorem text_inj_of_head (hs : ∀ c ∈ s.toList, P c) (ht : ∀ c ∈ t.toList, P c) (hu : ∀ c ∈ u.toList.head?, ¬ P c)
    (hv : ∀ c ∈ v.toList.head?, ¬ P c) (h : s ++ u = t ++ v) : s = t ∧ u = v := by
  have hlist := congrArg String.toList h
  rw [String.toList_append, String.toList_append] at hlist
  obtain ⟨hst, huv⟩ := append_eq_append_of_head P hs ht hu hv hlist
  exact ⟨String.toList_inj.1 hst, String.toList_inj.1 huv⟩

theorem text_inj_of_last (hu : ∀ c ∈ u.toList, P c) (hv : ∀ c ∈ v.toList, P c) (hs : ∀ c ∈ s.toList.getLast?, ¬ P c)
    (ht : ∀ c ∈ t.toList.getLast?, ¬ P c) (h : s ++ u = t ++ v) : s = t ∧ u = v := by
  have hlist := congrArg String.toList h
  rw [String.toList_append, String.toList_append] at hlist
  obtain ⟨hst, huv⟩ := append_eq_append_of_last P hu hv hs ht hlist
  exact ⟨String.toList_inj.1 hst, String.toList_inj.1 huv⟩

end Texts

/-! ## Numbers -/

theorem isDigit_of_mem_toString {n : Nat} {c : Char} (h : c ∈ (toString n).toList) : c.isDigit = true := by
  rw [Nat.toString_eq_ofList_toDigits, String.toList_ofList] at h
  exact Nat.isDigit_of_mem_toDigits (by decide) (by decide) h

theorem toString_inj {m n : Nat} (h : toString m = toString n) : m = n := by
  rw [Nat.toString_eq_ofList_toDigits, Nat.toString_eq_ofList_toDigits, String.ofList_inj] at h
  rw [← @Nat.ofDigitChars_ten_toDigits m, h, Nat.ofDigitChars_ten_toDigits]

/-- A number ends where what follows is no digit. -/
theorem toString_append_inj {m n : Nat} {s t : String} (hs : ∀ c ∈ s.toList.head?, c.isDigit = false)
    (ht : ∀ c ∈ t.toList.head?, c.isDigit = false) (h : toString m ++ s = toString n ++ t) : m = n ∧ s = t := by
  obtain ⟨hmn, hst⟩ := text_inj_of_head (·.isDigit = true) (fun _ => isDigit_of_mem_toString)
    (fun _ => isDigit_of_mem_toString) (fun c hc => by simp [hs c hc]) (fun c hc => by simp [ht c hc]) h
  exact ⟨toString_inj hmn, hst⟩

/-- A number begins where a text in front of it ends in no digit. -/
theorem append_toString_inj {m n : Nat} {s t sep : String} (hsep : sep.toList.getLast?.map Char.isDigit = some false)
    (h : s ++ sep ++ toString m = t ++ sep ++ toString n) : s = t ∧ m = n := by
  obtain ⟨c, hc, hdigit⟩ := Option.map_eq_some_iff.1 hsep
  have hlast (u : String) : ∀ d ∈ (u ++ sep).toList.getLast?, ¬ d.isDigit = true := by
    intro d hd
    rw [String.toList_append, List.getLast?_append, hc] at hd
    cases hd
    simp [hdigit]
  obtain ⟨hst, hmn⟩ := text_inj_of_last (·.isDigit = true) (fun _ => isDigit_of_mem_toString)
    (fun _ => isDigit_of_mem_toString) (hlast s) (hlast t) h
  exact ⟨(String.append_left_inj sep).1 hst, toString_inj hmn⟩

/-! ## Lines -/

def OneLine (t : String) : Prop := '\n' ∉ t.toList

instance (t : String) : Decidable (OneLine t) := inferInstanceAs (Decidable (¬ '\n' ∈ t.toList))

theorem OneLine.append {s t : String} (hs : OneLine s) (ht : OneLine t) : OneLine (s ++ t) := by
  unfold OneLine
  rw [String.toList_append, List.mem_append]
  exact not_or.2 ⟨hs, ht⟩

theorem oneLine_toString (n : Nat) : OneLine (toString n) := by
  intro h
  exact absurd (isDigit_of_mem_toString h) (by decide)

/-- Lines can be told apart when they stand one after the other, each with its end. -/
theorem join_lines_inj {ls ms : List String} (hl : ∀ l ∈ ls, OneLine l) (hm : ∀ m ∈ ms, OneLine m)
    (h : String.join (ls.map (· ++ "\n")) = String.join (ms.map (· ++ "\n"))) : ls = ms := by
  induction ls generalizing ms with
  | nil =>
    cases ms with
    | nil => rfl
    | cons m ms => simpa using congrArg String.toList h
  | cons l ls ih =>
    cases ms with
    | nil => simpa using congrArg String.toList h
    | cons m ms =>
      rw [List.map_cons, List.map_cons, String.join_cons, String.join_cons, String.append_assoc,
        String.append_assoc] at h
      obtain ⟨rfl, hrest⟩ := text_inj_of_head (· ≠ '\n') (fun c hc hn => hl l List.mem_cons_self (hn ▸ hc))
        (fun c hc hn => hm m List.mem_cons_self (hn ▸ hc)) (by simp) (by simp) h
      rw [ih (fun l h => hl l (List.mem_cons_of_mem _ h)) (fun m h => hm m (List.mem_cons_of_mem _ h))
        ((String.append_right_inj _).1 hrest)]

/-! ## Quoted text -/

namespace Text

theorem digitChar_hex (d : Nat) (hd : d < 16) : d.digitChar ≠ '\x7d' ∧ d.digitChar ≠ '\n' := by
  have hall : ∀ d : Fin 16, d.val.digitChar ≠ '\x7d' ∧ d.val.digitChar ≠ '\n' := by decide
  exact hall ⟨d, hd⟩

theorem digitChar_hex_inj {d e : Nat} (hd : d < 16) (he : e < 16) (h : d.digitChar = e.digitChar) : d = e := by
  have hall : ∀ d e : Fin 16, d.val.digitChar = e.val.digitChar → d = e := by decide
  exact congrArg Fin.val (hall ⟨d, hd⟩ ⟨e, he⟩ h)

theorem mem_toDigits_hex {n : Nat} {c : Char} (h : c ∈ Nat.toDigits 16 n) : c ≠ '\x7d' ∧ c ≠ '\n' := by
  induction n using Nat.strongRecOn with
  | ind n ih =>
    by_cases hn : n < 16
    · rw [Nat.toDigits_of_lt_base hn] at h
      rw [List.mem_singleton.1 h]
      exact digitChar_hex n hn
    · rw [Nat.toDigits_of_base_le (by decide) (Nat.le_of_not_lt hn)] at h
      rcases List.mem_append.1 h with h | h
      · exact ih (n / 16) (by omega) h
      · rw [List.mem_singleton.1 h]
        exact digitChar_hex (n % 16) (Nat.mod_lt n (by decide))

theorem toDigits_hex_inj {m n : Nat} (h : Nat.toDigits 16 m = Nat.toDigits 16 n) : m = n := by
  have hlong {a b : Nat} (ha : a < 16) (hb : ¬ b < 16) : Nat.toDigits 16 a ≠ Nat.toDigits 16 b := by
    intro hab
    rw [Nat.toDigits_of_lt_base ha, Nat.toDigits_of_base_le (by decide) (Nat.le_of_not_lt hb)] at hab
    have hlen := congrArg List.length hab
    have hne := List.length_pos_iff.2 (@Nat.toDigits_ne_nil (b / 16) 16)
    simp only [List.length_append, List.length_singleton] at hlen
    omega
  induction m using Nat.strongRecOn generalizing n with
  | ind m ih =>
    by_cases hm : m < 16 <;> by_cases hn : n < 16
    · rw [Nat.toDigits_of_lt_base hm, Nat.toDigits_of_lt_base hn] at h
      exact digitChar_hex_inj hm hn (List.singleton_inj.1 h)
    · exact absurd h (hlong hm hn)
    · exact absurd h.symm (hlong hn hm)
    · rw [Nat.toDigits_of_base_le (by decide) (Nat.le_of_not_lt hm),
        Nat.toDigits_of_base_le (by decide) (Nat.le_of_not_lt hn)] at h
      obtain ⟨hdiv, hmod⟩ := List.append_inj' h rfl
      have hdiv := ih (m / 16) (by omega) hdiv
      have hmod := digitChar_hex_inj (Nat.mod_lt m (by decide)) (Nat.mod_lt n (by decide)) (List.singleton_inj.1 hmod)
      omega

/-- The character that a backslash and `k` stand for, where `k` is not the letter before a code point. -/
def unescape (k : Char) : Char :=
  if k = '0' then '\x00'
  else if k = 't' then '\t'
  else if k = 'r' then '\r'
  else if k = 'n' then '\n'
  else k

/-- What a character can look like inside double quotes. -/
inductive Escaped (c : Char) : List Char → Prop
  | short {k : Char} (hk : unescape k = c) (hu : k ≠ 'u') (hn : k ≠ '\n') : Escaped c ['\\', k]
  | plain (hc : c ≠ '\\') (hn : c ≠ '\n') : Escaped c [c]
  | coded : Escaped c ('\\' :: 'u' :: '\x7b' :: (Nat.toDigits 16 c.toNat ++ ['\x7d']))

theorem escaped_escapeIn (c : Char) : Escaped c (escapeIn '"' c).toList := by
  unfold escapeIn
  split
  · exact .short (k := '0') (by simp [unescape, *]) (by decide) (by decide)
  split
  · exact .short (k := 't') (by simp [unescape, *]) (by decide) (by decide)
  split
  · exact .short (k := 'r') (by simp [unescape, *]) (by decide) (by decide)
  split
  · exact .short (k := 'n') (by simp [unescape, *]) (by decide) (by decide)
  split
  · exact .short (k := '\\') (by simp [unescape, *]) (by decide) (by decide)
  split
  · exact .short (k := '"') (by simp [unescape, *]) (by decide) (by decide)
  split
  · have hc : c.toString.toList = [c] := String.toList_singleton c
    rw [hc]
    exact .plain ‹_› ‹_›
  · have hcode : (codePoint c).toList = '\\' :: 'u' :: '\x7b' :: (Nat.toDigits 16 c.toNat ++ ['\x7d']) := by
      simp [codePoint]
    rw [hcode]
    exact .coded

namespace Escaped

variable {c d : Char} {s t xs ys : List Char}

/-- A character inside quotes ends where it ends, whatever follows. -/
theorem append_inj (hc : Escaped c s) (hd : Escaped d t) (h : s ++ xs = t ++ ys) : c = d ∧ xs = ys := by
  cases hc with
  | short hk hu hn =>
    cases hd with
    | short hk' hu' hn' =>
      simp only [List.cons_append, List.nil_append, List.cons.injEq, true_and] at h
      exact ⟨by rw [← hk, h.1, hk'], h.2⟩
    | plain hd hn =>
      simp only [List.cons_append, List.cons.injEq] at h
      exact absurd h.1.symm hd
    | coded =>
      simp only [List.cons_append, List.cons.injEq, true_and] at h
      exact absurd h.1 hu
  | plain hc hn =>
    cases hd with
    | short hk' hu' hn' =>
      simp only [List.cons_append, List.cons.injEq] at h
      exact absurd h.1 hc
    | plain hd hn' =>
      simpa only [List.cons_append, List.nil_append, List.cons.injEq] using h
    | coded =>
      simp only [List.cons_append, List.cons.injEq] at h
      exact absurd h.1 hc
  | coded =>
    cases hd with
    | short hk' hu' hn' =>
      simp only [List.cons_append, List.cons.injEq, true_and] at h
      exact absurd h.1.symm hu'
    | plain hd hn =>
      simp only [List.cons_append, List.cons.injEq] at h
      exact absurd h.1.symm hd
    | coded =>
      simp only [List.cons_append, List.cons.injEq, true_and, List.append_assoc] at h
      obtain ⟨hdigits, hrest⟩ := append_eq_append_of_head (· ≠ '\x7d') (fun _ h => (mem_toDigits_hex h).1)
        (fun _ h => (mem_toDigits_hex h).1) (by simp) (by simp) h
      exact ⟨Char.toNat_inj.1 (toDigits_hex_inj hdigits), (List.cons.inj hrest).2⟩

theorem ne_nil (h : Escaped c s) : s ≠ [] := by
  cases h <;> exact List.cons_ne_nil _ _

theorem newline_not_mem (h : Escaped c s) : '\n' ∉ s := by
  cases h with
  | short hk hu hn => simp [Ne.symm hn]
  | plain hc hn => simp [Ne.symm hn]
  | coded =>
    intro hmem
    simp only [List.mem_cons, List.mem_append, List.not_mem_nil, or_false] at hmem
    rcases hmem with h | h | h | h | h
    · exact absurd h (by decide)
    · exact absurd h (by decide)
    · exact absurd h (by decide)
    · exact (mem_toDigits_hex h).2 rfl
    · exact absurd h (by decide)

end Escaped

theorem flatMap_escapeIn_inj {cs ds : List Char}
    (h : cs.flatMap (fun c => (escapeIn '"' c).toList) = ds.flatMap (fun c => (escapeIn '"' c).toList)) : cs = ds := by
  induction cs generalizing ds with
  | nil =>
    cases ds with
    | nil => rfl
    | cons d ds =>
      rw [List.flatMap_nil, List.flatMap_cons] at h
      exact absurd (List.append_eq_nil_iff.1 h.symm).1 (escaped_escapeIn d).ne_nil
  | cons c cs ih =>
    cases ds with
    | nil =>
      rw [List.flatMap_nil, List.flatMap_cons] at h
      exact absurd (List.append_eq_nil_iff.1 h).1 (escaped_escapeIn c).ne_nil
    | cons d ds =>
      rw [List.flatMap_cons, List.flatMap_cons] at h
      obtain ⟨rfl, hrest⟩ := (escaped_escapeIn c).append_inj (escaped_escapeIn d) h
      rw [ih hrest]

theorem toList_quote (s : String) :
    (quote s).toList = '"' :: (s.toList.flatMap (fun c => (escapeIn '"' c).toList) ++ ['"']) := by
  simp [quote, List.flatMap_map]

/-- Every text has quotes of its own. -/
theorem quote_inj {s t : String} (h : quote s = quote t) : s = t := by
  have hlist := congrArg String.toList h
  rw [toList_quote, toList_quote] at hlist
  exact String.toList_inj.1 (flatMap_escapeIn_inj (List.append_cancel_right (List.cons.inj hlist).2))

/-- Whatever is in a text, its quotes are on one line. -/
theorem oneLine_quote (s : String) : OneLine (quote s) := by
  unfold OneLine
  rw [toList_quote]
  simp only [List.mem_cons, List.mem_append, List.mem_flatMap, List.not_mem_nil, or_false]
  rintro (h | ⟨c, -, hc⟩ | h)
  · exact absurd h (by decide)
  · exact (escaped_escapeIn c).newline_not_mem hc
  · exact absurd h (by decide)

end Text

end Funclet
