import Funclet.Json.Reading

/-!
# Strings of JSON texts

* `Json.Spells sp s` : between two quotes, `sp` spells the text `s`, be it with characters that stand for themselves,
  with short escapes, or with code units, one or two for a character;
* `Spells.spelling?`, `Spells.unspell?` : all of a spelling is read, and as the text that it spells;
* `spells_spell` : what is written for a text spells it.
-/

namespace Funclet.Json

/-- The letters of the short escapes, with what they stand for. -/
def shortEscapes : List (Char × Char) :=
  [('"', '"'), ('\\', '\\'), ('/', '/'), ('b', '\x08'), ('f', '\x0c'), ('n', '\n'), ('r', '\r'), ('t', '\t')]

inductive CodeUnit : List Char → Nat → Prop
  | mk {a b c d : Char} {n : Nat} (h : hexValue4? a b c d = some n) : CodeUnit ['\\', 'u', a, b, c, d] n

/-- Between quotes, the characters spell the text. -/
inductive Spells : List Char → List Char → Prop
  | nil : Spells [] []
  | plain {c : Char} {sp s : List Char} (hcontrol : 0x20 ≤ c.toNat) (hquote : c ≠ '"') (hslash : c ≠ '\\')
    (h : Spells sp s) : Spells (c :: sp) (c :: s)
  | short {e c : Char} {sp s : List Char} (he : (e, c) ∈ shortEscapes) (h : Spells sp s) :
    Spells ('\\' :: e :: sp) (c :: s)
  | unit {u : List Char} {n : Nat} {sp s : List Char} (hu : CodeUnit u n) (hhigh : isHighHalf n = false)
    (hlow : isLowHalf n = false) (h : Spells sp s) : Spells (u ++ sp) (Char.ofNat n :: s)
  | pair {u v : List Char} {n m : Nat} {sp s : List Char} (hu : CodeUnit u n) (hv : CodeUnit v m)
    (hhigh : isHighHalf n = true) (hlow : isLowHalf m = true) (h : Spells sp s) :
    Spells (u ++ (v ++ sp)) (Char.ofNat (0x10000 + (n - 0xd800) * 0x400 + (m - 0xdc00)) :: s)

/-! ## Reading -/

theorem unescape?_of_mem {e c : Char} (h : (e, c) ∈ shortEscapes) : unescape? e = some c ∧ e ≠ 'u' := by
  have hall : ∀ p ∈ shortEscapes, unescape? p.1 = some p.2 ∧ p.1 ≠ 'u' := by simp [shortEscapes, unescape?]
  exact hall (e, c) h

theorem CodeUnit.spelling? {u : List Char} {n : Nat} (hu : CodeUnit u n) {cs sp rest : List Char}
    (h : Json.spelling? cs = some (sp, rest)) : Json.spelling? (u ++ cs) = some (u ++ sp, rest) := by
  obtain ⟨hn⟩ := hu
  simp [Json.spelling?, hn, h]

theorem CodeUnit.pieces? {u : List Char} {n : Nat} (hu : CodeUnit u n) (cs : List Char) :
    Json.pieces? (u ++ cs) = (Json.pieces? cs).map (.unit n :: ·) := by
  obtain ⟨hn⟩ := hu
  simp [Json.pieces?, hn]

/-- The reader stops at the closing quote, and not before. -/
theorem Spells.spelling? {sp s : List Char} (h : Spells sp s) (rest : List Char) :
    Json.spelling? (sp ++ '"' :: rest) = some (sp, rest) := by
  induction h with
  | nil => rfl
  | @plain c _ _ hcontrol hquote hslash _ ih =>
    simp [Json.spelling?, hslash, Nat.not_lt.2 hcontrol, ih]
  | short he _ ih =>
    obtain ⟨hc, hu⟩ := unescape?_of_mem he
    simp [Json.spelling?, hu, hc, ih]
  | unit hu _ _ _ ih =>
    rw [List.append_assoc]
    exact hu.spelling? ih
  | pair hu hv _ _ _ ih =>
    rw [List.append_assoc, List.append_assoc]
    exact hu.spelling? (hv.spelling? ih)

theorem characters?_unit {n : Nat} (hhigh : isHighHalf n = false) (hlow : isLowHalf n = false) (ps : List Piece) :
    characters? (.unit n :: ps) = (characters? ps).map (Char.ofNat n :: ·) := by
  cases ps with
  | nil => simp [characters?, hhigh, hlow]
  | cons p ps => cases p <;> simp [characters?, hhigh, hlow]

theorem Spells.exists_pieces {sp s : List Char} (h : Spells sp s) :
    ∃ ps, Json.pieces? sp = some ps ∧ characters? ps = some s := by
  induction h with
  | nil => exact ⟨[], rfl, rfl⟩
  | @plain c _ _ _ _ hslash _ ih =>
    obtain ⟨ps, hps, hs⟩ := ih
    exact ⟨.char c :: ps, by simp [Json.pieces?, hslash, hps], by simp [characters?, hs]⟩
  | @short e c _ _ he _ ih =>
    obtain ⟨ps, hps, hs⟩ := ih
    obtain ⟨hc, hu⟩ := unescape?_of_mem he
    exact ⟨.char c :: ps, by simp [Json.pieces?, hu, hc, hps], by simp [characters?, hs]⟩
  | @unit _ n _ _ hu hhigh hlow _ ih =>
    obtain ⟨ps, hps, hs⟩ := ih
    exact ⟨.unit n :: ps, by simp [hu.pieces?, hps], by simp [characters?_unit hhigh hlow, hs]⟩
  | @pair _ _ n m _ _ hu hv hhigh hlow _ ih =>
    obtain ⟨ps, hps, hs⟩ := ih
    exact ⟨.unit n :: .unit m :: ps, by simp [hu.pieces?, hv.pieces?, hps], by simp [characters?, hhigh, hlow, hs]⟩

theorem Spells.unspell? {sp s : String} (h : Spells sp.toList s.toList) : Json.unspell? sp = some s := by
  obtain ⟨ps, hps, hs⟩ := h.exists_pieces
  simp [Json.unspell?, hps, hs]

/-! ## Writing -/

theorem hexValue?_digitChar {d : Nat} (hd : d < 16) : hexValue? d.digitChar = some d := by
  have hall : ∀ d : Fin 16, hexValue? d.val.digitChar = some d.val := by decide
  exact hall ⟨d, hd⟩

/-- The code unit of a control character. -/
theorem codeUnit_control {n : Nat} (hn : n < 0x20) :
    CodeUnit ['\\', 'u', '0', '0', (n / 16).digitChar, (n % 16).digitChar] n := by
  have hzero : hexValue? '0' = some 0 := by decide
  have hhigh := hexValue?_digitChar (show n / 16 < 16 by omega)
  have hlow := hexValue?_digitChar (Nat.mod_lt n (show 0 < 16 by decide))
  refine ⟨?_⟩
  simp [hexValue4?, hzero, hhigh, hlow]
  omega

/-- One character more. -/
theorem Spells.escape {sp s : List Char} (h : Spells sp s) (c : Char) :
    Spells ((Json.escape c).toList ++ sp) (c :: s) := by
  by_cases hshort : c ∈ ['"', '\\', '\n', '\r', '\t', '\x08', '\x0c']
  · simp only [List.mem_cons, List.not_mem_nil, or_false] at hshort
    rcases hshort with rfl | rfl | rfl | rfl | rfl | rfl | rfl
    · exact h.short (show ('"', '"') ∈ shortEscapes by decide)
    · exact h.short (show ('\\', '\\') ∈ shortEscapes by decide)
    · exact h.short (show ('n', '\n') ∈ shortEscapes by decide)
    · exact h.short (show ('r', '\r') ∈ shortEscapes by decide)
    · exact h.short (show ('t', '\t') ∈ shortEscapes by decide)
    · exact h.short (show ('b', '\x08') ∈ shortEscapes by decide)
    · exact h.short (show ('f', '\x0c') ∈ shortEscapes by decide)
  · simp only [List.mem_cons, List.not_mem_nil, or_false, not_or] at hshort
    by_cases hcontrol : c.toNat < 0x20
    · have hhalf : isHighHalf c.toNat = false ∧ isLowHalf c.toNat = false := by
        simp [isHighHalf, isLowHalf]
        omega
      have hunit := h.unit (codeUnit_control hcontrol) hhalf.1 hhalf.2
      rw [Char.ofNat_toNat] at hunit
      simpa [Json.escape, hshort, hcontrol] using hunit
    · simpa [Json.escape, hshort, hcontrol, Char.toString] using h.plain (Nat.not_lt.1 hcontrol) hshort.1 hshort.2.1

/-- What is written for a text spells it. -/
theorem spells_spell (s : String) : Spells (spell s).toList s.toList := by
  have hlist : (spell s).toList = s.toList.flatMap (fun c => (escape c).toList) := by
    simp [spell, List.flatMap_map]
  rw [hlist]
  induction s.toList with
  | nil => exact .nil
  | cons c cs ih => exact ih.escape c

end Funclet.Json
