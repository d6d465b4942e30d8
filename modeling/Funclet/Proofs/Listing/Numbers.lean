import Mathlib.Algebra.Order.Field.Power
import Mathlib.Algebra.Order.Field.Rat
import Mathlib.Data.List.TakeWhile
import Mathlib.Data.Rat.Cast.Order
import Mathlib.Tactic.FieldSimp
import Mathlib.Tactic.Linarith
import Mathlib.Tactic.NormNum
import Mathlib.Tactic.Positivity
import Mathlib.Tactic.Ring
import Funclet.Decimal.Layout
import Funclet.Decimal.Reading

/-!
# Numbers can be told from their digits

* `Decimal.value`, `Binary.low`, `Binary.high` : decimals, and the ends of what rounds to a float, as rational numbers;
* `Binary.Rounds b x` : `x` rounds to the float `b`;
* `Rounds.bits_eq` : no number rounds to two floats;
* `shortest_rounds` : the shortest digits round to the float that they are of;
* `value_write` : digits in positional notation spell the decimal that they are of;
* `render_injective` : so every float has a text of its own.
-/

namespace Funclet.Decimal

def value (d : Decimal) : ℚ := d.digits * 10 ^ d.exponent

namespace Binary

/-! ## What rounds to a float -/

section Rounding

variable (b : Binary)

/-- The lower end of what rounds to the float. -/
def low : ℚ := (4 * b.mantissa - if b.narrow then 1 else 2) * 2 ^ (b.exponent - 2)

/-- The upper end of what rounds to the float. -/
def high : ℚ := (4 * b.mantissa + 2) * 2 ^ (b.exponent - 2)

/-- The number `x` rounds to the float. Both ends do so if the mantissa is even. -/
def Rounds (x : ℚ) : Prop :=
  if b.mantissa % 2 = 0 then b.low ≤ x ∧ x ≤ b.high else b.low < x ∧ x < b.high

end Rounding

variable {b : Binary} {p : Int}

theorem scales_pos (b : Binary) (p : Int) : 0 < (b.scales p).1 ∧ 0 < (b.scales p).2 := by
  constructor <;> exact Nat.mul_pos (Nat.pow_pos (by decide)) (Nat.pow_pos (by decide))

/-- A power with an exponent of either sign is a quotient of two powers, one of which is one. -/
theorem zpow_eq_div (a : ℚ) (ha : a ≠ 0) (n : Int) : a ^ n = a ^ n.toNat / a ^ (-n).toNat := by
  rw [← zpow_natCast, ← zpow_natCast, ← zpow_sub₀ ha]
  congr 1
  omega

theorem scales_eq (b : Binary) (p : Int) :
    b.scales p = (10 ^ p.toNat * 2 ^ (-(b.exponent - 2)).toNat, 10 ^ (-p).toNat * 2 ^ (b.exponent - 2).toNat) := rfl

/-- The two scales are in the proportion of the grid and a quarter of the last place. -/
theorem scales_ratio (b : Binary) (p : Int) :
    ((b.scales p).1 : ℚ) * 2 ^ (b.exponent - 2) = (b.scales p).2 * 10 ^ p := by
  rw [scales_eq, zpow_eq_div 10 (by norm_num) p, zpow_eq_div 2 (by norm_num) (b.exponent - 2)]
  push_cast
  field_simp

/-- A point of a grid is covered where it rounds to the float. -/
theorem covers_iff (hb : 0 < b.mantissa) (p : Int) (d : Nat) :
    b.covers (b.scales p).2 (d * (b.scales p).1) = true ↔ b.Rounds (d * 10 ^ p) := by
  obtain ⟨-, hw⟩ := b.scales_pos p
  have hw : (0 : ℚ) < (b.scales p).2 := by exact_mod_cast hw
  have hq : (0 : ℚ) < 2 ^ (b.exponent - 2) := by positivity
  have hratio := b.scales_ratio p
  generalize (b.scales p).1 = u at *
  generalize (b.scales p).2 = w at *
  -- in the common unit, a bound `n` on the float is `n * w`
  have hpoint : (d : ℚ) * 10 ^ p = d * u * (2 ^ (b.exponent - 2) / w) := by
    rw [mul_div_assoc', eq_div_iff hw.ne', mul_assoc (d : ℚ) (u : ℚ), hratio]
    ring
  have hunit : (0 : ℚ) < 2 ^ (b.exponent - 2) / w := by positivity
  have hend (n : ℚ) : n * 2 ^ (b.exponent - 2) = n * w * (2 ^ (b.exponent - 2) / w) := by
    field_simp
  have hlow : ((4 * b.mantissa - if b.narrow then 1 else 2 : Nat) : ℚ) =
      4 * b.mantissa - if b.narrow then 1 else 2 := by
    split <;> push_cast [Nat.cast_sub (show 1 ≤ 4 * b.mantissa by omega),
      Nat.cast_sub (show 2 ≤ 4 * b.mantissa by omega)] <;> rfl
  unfold covers Rounds low high
  rw [hpoint, hend, hend, mul_le_mul_iff_left₀ hunit, mul_le_mul_iff_left₀ hunit, mul_lt_mul_iff_left₀ hunit,
    mul_lt_mul_iff_left₀ hunit, ← hlow]
  dsimp only
  split <;> simp only [Bool.and_eq_true, decide_eq_true_eq] <;> norm_cast

/-! ## Shortest digits -/

section Shortest

variable (tie : Tie)

theorem covers_of_onGrid {d : Nat} (h : b.onGrid tie p = some d) :
    b.covers (b.scales p).2 (d * (b.scales p).1) = true := by
  unfold onGrid at h
  dsimp only at h
  split at h
  · cases h
  · cases h
    assumption
  · cases h
    assumption
  · split at h
    · cases h
      assumption
    · split at h
      · cases h
        assumption
      · split at h <;> cases h
        · assumption
        · split <;> assumption

/-- On a grid that is no coarser than a quarter of the last place, the point above the float rounds to it. -/
theorem onGrid_of_fine (h : (b.scales p).1 ≤ (b.scales p).2) : (b.onGrid tie p).isSome := by
  obtain ⟨hu, hw⟩ := b.scales_pos p
  have habove : b.covers (b.scales p).2 ((4 * b.mantissa * (b.scales p).2 / (b.scales p).1 + 1) * (b.scales p).1) := by
    generalize (b.scales p).1 = u at *
    generalize (b.scales p).2 = w at *
    have hdiv := Nat.div_add_mod (4 * b.mantissa * w) u
    have hmod := Nat.mod_lt (4 * b.mantissa * w) hu
    have hpoint : (4 * b.mantissa * w / u + 1) * u = u * (4 * b.mantissa * w / u) + u := by ring
    have hhigh : (4 * b.mantissa + 2) * w = 4 * b.mantissa * w + 2 * w := by ring
    have hlow : (4 * b.mantissa - if b.narrow then 1 else 2) * w ≤ 4 * b.mantissa * w :=
      Nat.mul_le_mul_right w (Nat.sub_le _ _)
    unfold covers
    dsimp only
    rw [hhigh]
    split <;> simp only [Bool.and_eq_true, decide_eq_true_eq] <;> omega
  unfold onGrid
  dsimp only
  rw [habove]
  split
  · cases ‹true = false›
  · cases ‹true = false›
  · rfl
  · split
    · rfl
    · split
      · rfl
      · split <;> rfl

/-- A search finds an answer if one of the grids has one. -/
theorem search_onGrid {n k : Nat} (hk : k < n) (h : (b.onGrid tie (p - k)).isSome) :
    b.onGrid tie (b.search tie n p).exponent = some (b.search tie n p).digits := by
  induction n generalizing p k with
  | zero => exact absurd hk (Nat.not_lt_zero _)
  | succ n ih =>
    unfold search
    cases hp : b.onGrid tie p with
    | some d => exact hp
    | none =>
      obtain _ | k := k
      · simp [hp] at h
      · refine ih (k := k) (Nat.lt_of_succ_lt_succ hk) ?_
        have hgrid : p - ((k + 1 : Nat) : Int) = p - 1 - k := by omega
        rwa [← hgrid]

theorem two_pow_le_ten_pow {a n : Nat} (h : 10 * a ≤ 33 * n) : 2 ^ a ≤ 10 ^ n := by
  refine (Nat.pow_le_pow_iff_left (show 10 ≠ 0 by decide)).1 ?_
  calc (2 ^ a) ^ 10 = 2 ^ (10 * a) := by rw [← pow_mul, mul_comm]
    _ ≤ 2 ^ (33 * n) := Nat.pow_le_pow_right (by decide) h
    _ = (2 ^ 33) ^ n := pow_mul ..
    _ ≤ (10 ^ 10) ^ n := Nat.pow_le_pow_left (by decide) n
    _ = (10 ^ n) ^ 10 := by rw [← pow_mul, ← pow_mul, mul_comm]

theorem ten_pow_le_two_pow {a n : Nat} (h : 10 * n ≤ 3 * a) : 10 ^ n ≤ 2 ^ a := by
  refine (Nat.pow_le_pow_iff_left (show 3 ≠ 0 by decide)).1 ?_
  calc (10 ^ n) ^ 3 = (10 ^ 3) ^ n := by rw [← pow_mul, ← pow_mul, mul_comm]
    _ ≤ (2 ^ 10) ^ n := Nat.pow_le_pow_left (by decide) n
    _ = 2 ^ (10 * n) := (pow_mul ..).symm
    _ ≤ 2 ^ (3 * a) := Nat.pow_le_pow_right (by decide) h
    _ = (2 ^ a) ^ 3 := by rw [← pow_mul, mul_comm]

/-- The magnitude of a finite float other than zero. -/
structure Finite (b : Binary) : Prop where
  mantissa_pos : 0 < b.mantissa
  mantissa_lt : b.mantissa < 2 ^ 53
  exponent_ge : -1074 ≤ b.exponent
  exponent_le : b.exponent ≤ 971

/-- The last grid that is tried is fine enough. -/
theorem Finite.scales_le (h : b.Finite)
    (hp : p = ((b.mantissa.log2 : Int) + 1 + b.exponent) * 30103 / 100000 + 2 - 23) :
    (b.scales p).1 ≤ (b.scales p).2 := by
  have hlog : b.mantissa.log2 < 53 := (Nat.log2_lt h.mantissa_pos.ne').2 h.mantissa_lt
  have hge := h.exponent_ge
  have hle := h.exponent_le
  rw [scales_eq]
  dsimp only
  rcases Int.le_total p 0 with hneg | hpos
  · rw [Int.toNat_of_nonpos hneg, pow_zero, one_mul]
    refine (two_pow_le_ten_pow (n := (-p).toNat) ?_).trans (Nat.le_mul_of_pos_right _ (Nat.two_pow_pos _))
    omega
  · rw [Int.toNat_of_nonpos (show -p ≤ 0 by omega), Int.toNat_of_nonpos (show -(b.exponent - 2) ≤ 0 by omega), pow_zero,
      pow_zero, mul_one, one_mul]
    exact ten_pow_le_two_pow (by omega)

/-- The shortest digits round to the float that they are of. -/
theorem Finite.shortest_rounds (h : b.Finite) : b.Rounds (b.shortest tie).value := by
  have hgrid := search_onGrid (n := 24) (k := 23) tie (by decide) (onGrid_of_fine tie (h.scales_le rfl))
  exact (covers_iff h.mantissa_pos _ _).1 (covers_of_onGrid tie hgrid)

end Shortest

/-! ## Neighbours -/

/-- The bits of infinity, the first that are of no finite number. -/
def infinity : Nat := 0x7ff0000000000000

theorem ofBits_eq {e f : Nat} (he : e < 0x800) (hf : f < unit) :
    ofBits (unit * e + f) =
      if e = 0 then ⟨f, -1074, false⟩ else ⟨f + unit, (e : Int) - 1075, f == 0 && decide (1 < e)⟩ := by
  have hunit : 0 < unit := by decide
  unfold ofBits
  rw [Nat.mul_add_div hunit, Nat.div_eq_of_lt hf, Nat.mul_add_mod, Nat.mod_eq_of_lt hf, Nat.add_zero,
    Nat.mod_eq_of_lt he]

theorem exists_fields {k : Nat} (hk : k < infinity) : ∃ e f, e < 0x7ff ∧ f < unit ∧ k = unit * e + f := by
  refine ⟨k / unit, k % unit, ?_, Nat.mod_lt _ (by decide), (Nat.div_add_mod k unit).symm⟩
  exact Nat.div_lt_of_lt_mul hk

theorem finite_ofBits {k : Nat} (hpos : 0 < k) (hk : k < infinity) : (ofBits k).Finite := by
  obtain ⟨e, f, he, hf, rfl⟩ := exists_fields hk
  have hunit : unit = 0x10000000000000 := rfl
  rw [ofBits_eq (by omega) hf]
  split
  · rename_i hzero
    subst hzero
    refine ⟨?_, ?_, ?_, ?_⟩ <;> dsimp only <;> omega
  · refine ⟨?_, ?_, ?_, ?_⟩ <;> dsimp only <;> omega

theorem mantissa_mod_two {k : Nat} (hk : k < infinity) : (ofBits k).mantissa % 2 = k % 2 := by
  obtain ⟨e, f, he, hf, rfl⟩ := exists_fields hk
  have hunit : unit = 0x10000000000000 := rfl
  rw [ofBits_eq (by omega) hf]
  split <;> dsimp only <;> rw [hunit] <;> omega

/-- What rounds to a float ends where what rounds to the next one starts. -/
theorem high_eq_low {k : Nat} (hk : k + 1 < infinity) : (ofBits k).high = (ofBits (k + 1)).low := by
  obtain ⟨e, f, he, hf, rfl⟩ := exists_fields (Nat.lt_of_succ_lt hk)
  have hunit : unit = 0x10000000000000 := rfl
  rcases Nat.lt_or_ge (f + 1) unit with hnext | hlast
  · rw [Nat.add_assoc, ofBits_eq (by omega) hf, ofBits_eq (by omega) hnext]
    have hne : (f + 1 == 0) = false := by simp
    unfold high low
    split <;> simp only [hne, Bool.false_and, Bool.false_eq_true, if_false] <;> congr 1 <;> push_cast <;> ring
  · have hcarry : unit * e + f + 1 = unit * (e + 1) + 0 := by
      rw [Nat.mul_add, Nat.mul_one]
      omega
    rw [hcarry, ofBits_eq (by omega) hf, ofBits_eq (by omega) (by decide), if_neg (Nat.succ_ne_zero e)]
    obtain rfl : f = 0x10000000000000 - 1 := by omega
    rcases Nat.eq_zero_or_pos e with rfl | hpos
    · unfold high low
      simp only [hunit, Nat.lt_irrefl, decide_false, Bool.and_false, if_true, Bool.false_eq_true, if_false]
      congr 1
      norm_num
    · have hnarrow : decide (1 < e + 1) = true := by simpa using hpos
      have hpow : (2 : ℚ) ^ (((e + 1 : Nat) : Int) - 1075 - 2) = 2 ^ ((e : Int) - 1075 - 2) * 2 := by
        rw [← zpow_add_one₀ (by norm_num)]
        congr 1
        push_cast
        ring
      unfold high low
      rw [if_neg hpos.ne']
      simp only [hunit, hnarrow, beq_self_eq_true, Bool.and_self, if_true, hpow]
      push_cast
      ring

theorem low_lt_high (b : Binary) : b.low < b.high := by
  have hq : (0 : ℚ) < 2 ^ (b.exponent - 2) := by positivity
  unfold low high
  refine mul_lt_mul_of_pos_right ?_ hq
  split <;> linarith

theorem high_le_low {k l : Nat} (h : k < l) (hl : l < infinity) : (ofBits k).high ≤ (ofBits l).low := by
  induction l with
  | zero => exact absurd h (Nat.not_lt_zero k)
  | succ l ih =>
    rcases Nat.lt_succ_iff_lt_or_eq.1 h with hlt | rfl
    · calc (ofBits k).high ≤ (ofBits l).low := ih hlt (Nat.lt_of_succ_lt hl)
        _ ≤ (ofBits l).high := (low_lt_high _).le
        _ = (ofBits (l + 1)).low := high_eq_low hl
    · exact (high_eq_low hl).le

theorem Rounds.within {x : ℚ} (h : b.Rounds x) : b.low ≤ x ∧ x ≤ b.high := by
  unfold Rounds at h
  split at h
  · exact h
  · exact ⟨h.1.le, h.2.le⟩

/-- A number on the border of two floats rounds to the even one only. -/
theorem Rounds.not_lt {x : ℚ} {k l : Nat} (hl : l < infinity) (hk : (ofBits k).Rounds x) (hx : (ofBits l).Rounds x) :
    ¬k < l := by
  intro hlt
  have hborder := high_le_low hlt hl
  have hhigh := hk.within.2
  have hlow := hx.within.1
  rcases Nat.lt_or_ge (k + 1) l with hfar | hnear
  · have hnext := high_eq_low (hfar.trans hl)
    have hbeyond := high_le_low hfar hl
    have hwidth := low_lt_high (ofBits (k + 1))
    linarith
  · obtain rfl : l = k + 1 := by omega
    have hparity := mantissa_mod_two hl
    have hparity' := mantissa_mod_two (Nat.lt_of_succ_lt hl)
    unfold Rounds at hk hx
    split at hk
    · rw [if_neg (by omega)] at hx
      linarith [hx.1]
    · linarith [hk.2]

/-- No number rounds to two floats. -/
theorem Rounds.bits_eq {x : ℚ} {k l : Nat} (hk : k < infinity) (hl : l < infinity) (hx : (ofBits k).Rounds x)
    (hx' : (ofBits l).Rounds x) : k = l :=
  Nat.le_antisymm (Nat.not_lt.1 (hx'.not_lt hk hx)) (Nat.not_lt.1 (hx.not_lt hl hx'))

theorem Rounds.pos {x : ℚ} (hb : 0 < b.mantissa) (h : b.Rounds x) : 0 < x := by
  have hm : (1 : ℚ) ≤ b.mantissa := by exact_mod_cast hb
  have hq : (0 : ℚ) < 2 ^ (b.exponent - 2) := by positivity
  refine lt_of_lt_of_le ?_ h.within.1
  unfold low
  refine mul_pos ?_ hq
  split <;> linarith

end Binary

/-! ## Digits -/

theorem natOfDigits_eq (ds : List Char) : natOfDigits ds = Nat.ofDigitChars 10 ds 0 := Nat.ofDigitChars_eq_foldl.symm

theorem natOfDigits_append (ds es : List Char) :
    natOfDigits (ds ++ es) = natOfDigits ds * 10 ^ es.length + natOfDigits es := by
  rw [natOfDigits_eq, natOfDigits_eq, natOfDigits_eq, Nat.ofDigitChars_append, Nat.ofDigitChars_eq_ofDigitChars_zero,
    mul_comm]

theorem natOfDigits_zeros (n : Nat) : natOfDigits (List.replicate n '0') = 0 := by
  rw [natOfDigits_eq, Nat.ofDigitChars_replicate_zero, mul_zero]

theorem natOfDigits_toDigits (n : Nat) : natOfDigits (Nat.toDigits 10 n) = n := by
  rw [natOfDigits_eq, Nat.ofDigitChars_ten_toDigits]

theorem ofDigits_point {whole fraction : List Char} (h : ∀ c ∈ whole, c ≠ '.') :
    ofDigits (whole ++ '.' :: fraction) = ofParts whole fraction := by
  have hall : ∀ c ∈ whole, (c != '.') = true := fun c hc => by simpa using h c hc
  unfold ofDigits
  rw [List.takeWhile_append_of_pos hall, List.dropWhile_append_of_pos hall]
  simp

theorem ofDigits_whole {whole : List Char} (h : ∀ c ∈ whole, c ≠ '.') : ofDigits whole = ofParts whole [] := by
  have hall : ∀ c ∈ whole, (c != '.') = true := fun c hc => by simpa using h c hc
  unfold ofDigits
  rw [List.takeWhile_eq_self_iff.2 hall, List.dropWhile_eq_nil_iff.2 hall]
  rfl

/-- The characters of digits in positional notation. -/
theorem toList_positionalText (ds : List Char) (point : Int) :
    (positionalText .plain ds point).toList =
      if point ≤ 0 then ['0'] ++ '.' :: (List.replicate (-point).toNat '0' ++ ds)
      else if (ds.length : Int) ≤ point then ds ++ List.replicate (point.toNat - ds.length) '0'
      else ds.take point.toNat ++ '.' :: ds.drop point.toNat := by
  unfold positionalText zeros
  split
  · simp [String.toList_append]
  · split <;> simp [String.toList_append, Layout.plain]

/-- In positional notation, digits spell the number that they are of. -/
theorem value_write (d : Decimal) : (ofDigits (write .plain d).toList).value = d.value := by
  have hdigits : ∀ c ∈ Nat.toDigits 10 d.digits, c ≠ '.' := by
    rintro c hc rfl
    exact absurd (Nat.isDigit_of_mem_toDigits (by decide) (by decide) hc) (by decide)
  have hnat := natOfDigits_toDigits d.digits
  have hwrite : write .plain d =
      positionalText .plain (Nat.toDigits 10 d.digits) ((Nat.toDigits 10 d.digits).length + d.exponent) := rfl
  rw [hwrite, toList_positionalText]
  generalize Nat.toDigits 10 d.digits = ds at hdigits hnat
  obtain ⟨n, e⟩ := d
  dsimp only at hnat ⊢
  split
  · rw [ofDigits_point (by simp), ofParts, natOfDigits_append, natOfDigits_append, natOfDigits_zeros, hnat]
    have hzero : natOfDigits ['0'] = 0 := rfl
    rw [hzero, Nat.zero_mul, Nat.zero_mul, Nat.zero_add, Nat.zero_add, List.length_append, List.length_replicate]
    congr 2
    omega
  · split
    · have hwhole : ∀ c ∈ ds ++ List.replicate (((ds.length : Int) + e).toNat - ds.length) '0', c ≠ '.' := by
        intro c hc
        rcases List.mem_append.1 hc with hc | hc
        · exact hdigits c hc
        · rw [List.eq_of_mem_replicate hc]
          decide
      rw [ofDigits_whole hwhole, ofParts, List.append_nil, natOfDigits_append, natOfDigits_zeros, hnat,
        List.length_replicate]
      obtain ⟨k, rfl⟩ := Int.eq_ofNat_of_zero_le (show 0 ≤ e by omega)
      have hk : ((ds.length : Int) + k).toNat - ds.length = k := by omega
      rw [hk]
      unfold value
      simp
    · rw [ofDigits_point (fun c hc => hdigits c (List.mem_of_mem_take hc)), ofParts, List.take_append_drop, hnat,
        List.length_drop]
      congr 2
      omega

/-! ## Floats -/

section Floats

open Float.Model.UnpackedFloat

theorem exponent_iff (b : BitVec 64) :
    @unpackExponent .binary64 b = -1#11 ↔ b.toNat / 0x10000000000000 % 0x800 = 0x7ff := by
  have hfield : (@unpackExponent .binary64 b).toNat = b.toNat / 0x10000000000000 % 0x800 := by
    simp only [unpackExponent, BitVec.toNat_cast, BitVec.extractLsb_toNat, Nat.shiftRight_eq_div_pow]
  rw [← hfield, ← BitVec.toNat_inj]
  rfl

theorem mantissa_iff (b : BitVec 64) : @unpackMantissa .binary64 b = 0#52 ↔ b.toNat % 0x10000000000000 = 0 := by
  have hfield : (@unpackMantissa .binary64 b).toNat = b.toNat % 0x10000000000000 := by
    simp [unpackMantissa, BitVec.extractLsb_toNat]
  rw [← hfield, ← BitVec.toNat_inj]
  rfl

/-- The largest exponent is that of infinity and of what is not a number. -/
theorem isNaN_isInf_iff (x : Float) :
    (x.isNaN = true ↔ x.toBits.toNat / 0x10000000000000 % 0x800 = 0x7ff ∧ ¬x.toBits.toNat % 0x10000000000000 = 0) ∧
      (x.isInf = true ↔ x.toBits.toNat / 0x10000000000000 % 0x800 = 0x7ff ∧ x.toBits.toNat % 0x10000000000000 = 0) := by
  have hE := exponent_iff x.toBits.toBitVec
  have hM := mantissa_iff x.toBits.toBitVec
  rw [UInt64.toNat_toBitVec] at hE hM
  rw [← hE, ← hM]
  change ((unpack .binary64 x.toBits.toBitVec).isNaN = true ↔ _) ∧
    ((unpack .binary64 x.toBits.toBitVec).isInf = true ↔ _)
  unfold unpack
  dsimp only
  by_cases he : @unpackExponent .binary64 x.toBits.toBitVec = -1#11
  · rw [if_pos he]
    by_cases hm : @unpackMantissa .binary64 x.toBits.toBitVec = 0#52
    · rw [if_pos hm]
      exact ⟨⟨fun h => (by cases h), fun h => absurd hm h.2⟩, ⟨fun _ => ⟨he, hm⟩, fun _ => rfl⟩⟩
    · rw [if_neg hm]
      exact ⟨⟨fun _ => ⟨he, hm⟩, fun _ => rfl⟩, ⟨fun h => (by cases h), fun h => absurd h.2 hm⟩⟩
  · rw [if_neg he]
    have hneither {y : Float.Model.UnpackedFloat} {p q : Prop} (hy : y.isNaN = false ∧ y.isInf = false) :
        (y.isNaN = true ↔ @unpackExponent .binary64 x.toBits.toBitVec = -1#11 ∧ p) ∧
          (y.isInf = true ↔ @unpackExponent .binary64 x.toBits.toBitVec = -1#11 ∧ q) := by
      rw [hy.1, hy.2]
      exact ⟨⟨fun h => (by cases h), fun h => absurd h.1 he⟩, ⟨fun h => (by cases h), fun h => absurd h.1 he⟩⟩
    apply hneither
    by_cases hz : @unpackExponent .binary64 x.toBits.toBitVec = 0#11
    · rw [if_pos hz]
      by_cases hm : @unpackMantissa .binary64 x.toBits.toBitVec = 0#52
      · rw [dif_pos hm]
        exact ⟨rfl, rfl⟩
      · rw [dif_neg hm]
        exact ⟨rfl, rfl⟩
    · rw [if_neg hz]
      exact ⟨rfl, rfl⟩

/-- There is just one float that is not a number. -/
theorem toBits_of_isNaN {x : Float} (h : x.isNaN = true) : x.toBits.toNat = 0x7ff8000000000000 := by
  obtain ⟨he, hm⟩ := (isNaN_isInf_iff x).1.1 h
  have hvalid := x.toModel.valid.eq_packedNaN ((exponent_iff _).2 he) (fun hz => hm ((mantissa_iff _).1 hz))
  change x.toModel.toBits.toBitVec.toNat = _
  rw [hvalid]
  rfl

theorem eq_of_toBits {x y : Float} (h : x.toBits.toNat = y.toBits.toNat) : x = y := by
  obtain ⟨⟨x, hx⟩⟩ := x
  obtain ⟨⟨y, hy⟩⟩ := y
  obtain rfl : x = y := UInt64.toNat_inj.1 h
  rfl

end Floats

def magnitudeText (k : Nat) : String :=
  if k = Binary.infinity then "inf" else if k = 0 then "0" else write .plain ((Binary.ofBits k).shortest .up)

theorem render_of_not_isNaN {x : Float} (h : x.isNaN = false) :
    render .plain x =
        (if signBit ≤ x.toBits.toNat then "-" else "") ++ magnitudeText (x.toBits.toNat % signBit) ∧
      x.toBits.toNat % signBit ≤ Binary.infinity := by
  have hNaN := (isNaN_isInf_iff x).1
  have hInf := (isNaN_isInf_iff x).2
  have hbits := x.toBits.toNat_lt
  have hsign : signBit = 0x8000000000000000 := rfl
  have hinfinity : Binary.infinity = 0x7ff0000000000000 := rfl
  rw [h] at hNaN
  have hle : x.toBits.toNat % signBit ≤ Binary.infinity := by
    rw [hsign, hinfinity]
    by_contra hlt
    refine absurd (hNaN.2 ⟨?_, ?_⟩) Bool.false_ne_true <;> omega
  have hinf : x.isInf = true ↔ x.toBits.toNat % signBit = Binary.infinity := by
    rw [hInf, hsign, hinfinity]
    constructor
    · rintro ⟨he, hm⟩
      omega
    · intro heq
      constructor <;> omega
  refine ⟨?_, hle⟩
  unfold render magnitudeText
  dsimp only
  rw [h, if_neg Bool.false_ne_true]
  by_cases heq : x.toBits.toNat % signBit = Binary.infinity
  · rw [if_pos (hinf.2 heq), if_pos heq]
  · rw [if_neg (mt hinf.1 heq), if_neg heq]
    split <;> rfl

theorem isDigit_of_mem_write {d : Decimal} {c : Char} (h : c ∈ (write .plain d).toList) :
    c.isDigit = true ∨ c = '.' := by
  have hdigits (hc : c ∈ Nat.toDigits 10 d.digits) : c.isDigit = true :=
    Nat.isDigit_of_mem_toDigits (by decide) (by decide) hc
  have hzeros {n : Nat} (hc : c ∈ List.replicate n '0') : c.isDigit = true := List.eq_of_mem_replicate hc ▸ rfl
  have hwrite : write .plain d =
      positionalText .plain (Nat.toDigits 10 d.digits) ((Nat.toDigits 10 d.digits).length + d.exponent) := rfl
  rw [hwrite, toList_positionalText] at h
  split at h
  · rcases List.mem_append.1 h with hc | hc
    · exact .inl (List.mem_singleton.1 hc ▸ rfl)
    · rcases List.mem_cons.1 hc with hc | hc
      · exact .inr hc
      · exact .inl ((List.mem_append.1 hc).elim hzeros hdigits)
  · split at h
    · exact .inl ((List.mem_append.1 h).elim hdigits hzeros)
    · rcases List.mem_append.1 h with hc | hc
      · exact .inl (hdigits (List.mem_of_mem_take hc))
      · rcases List.mem_cons.1 hc with hc | hc
        · exact .inr hc
        · exact .inl (hdigits (List.mem_of_mem_drop hc))

/-- The text of a magnitude is the word for infinity, or digits with at most one point. -/
theorem mem_magnitudeText {k : Nat} {c : Char} (h : c ∈ (magnitudeText k).toList) :
    k = Binary.infinity ∧ c ∈ ['i', 'n', 'f'] ∨ k ≠ Binary.infinity ∧ (c.isDigit = true ∨ c = '.') := by
  unfold magnitudeText at h
  split at h
  · exact .inl ⟨‹_›, h⟩
  · refine .inr ⟨‹_›, ?_⟩
    split at h
    · exact .inl (List.mem_singleton.1 h ▸ rfl)
    · exact isDigit_of_mem_write h

theorem value_magnitudeText {k : Nat} (hk : k < Binary.infinity) :
    k = 0 ∧ (ofDigits (magnitudeText k).toList).value = 0 ∨
      0 < k ∧ (Binary.ofBits k).Rounds (ofDigits (magnitudeText k).toList).value := by
  unfold magnitudeText
  rw [if_neg hk.ne]
  split
  · refine .inl ⟨‹_›, ?_⟩
    have hzero : ofDigits "0".toList = ⟨0, 0⟩ := by decide
    rw [hzero]
    simp [value]
  · have hpos : 0 < k := Nat.pos_of_ne_zero ‹_›
    rw [value_write]
    exact .inr ⟨hpos, (Binary.finite_ofBits hpos hk).shortest_rounds .up⟩

/-- Magnitudes can be told from their texts: finite ones by what the texts spell. -/
theorem magnitudeText_inj {k l : Nat} (hk : k ≤ Binary.infinity) (hl : l ≤ Binary.infinity)
    (h : magnitudeText k = magnitudeText l) : k = l := by
  have hword {m n : Nat} (hm : m = Binary.infinity) (hmn : magnitudeText m = magnitudeText n) :
      n = Binary.infinity := by
    have hi : 'i' ∈ (magnitudeText n).toList := by
      rw [← hmn, magnitudeText, if_pos hm]
      decide
    rcases mem_magnitudeText hi with ⟨hn, -⟩ | ⟨-, hdigit⟩
    · exact hn
    · exact absurd hdigit (by decide)
  rcases hk.lt_or_eq with hk | hk
  · rcases hl.lt_or_eq with hl | hl
    · have hvk := value_magnitudeText hk
      have hvl := value_magnitudeText hl
      rw [h] at hvk
      rcases hvk with ⟨rfl, hzero⟩ | ⟨hposk, hroundsk⟩ <;> rcases hvl with ⟨rfl, hzero'⟩ | ⟨hposl, hroundsl⟩
      · rfl
      · exact absurd hzero (hroundsl.pos (Binary.finite_ofBits hposl hl).mantissa_pos).ne'
      · exact absurd hzero' (hroundsk.pos (Binary.finite_ofBits hposk hk).mantissa_pos).ne'
      · exact hroundsk.bits_eq hk hl hroundsl
    · exact absurd (hword hl h.symm) hk.ne
  · exact hk.trans (hword hk h).symm

theorem NaN_ne_render {x : Float} (h : x.isNaN = false) : render .plain x ≠ "NaN" := by
  intro heq
  obtain ⟨hrender, -⟩ := render_of_not_isNaN h
  have hN : 'N' ∈ (render .plain x).toList := by
    rw [heq]
    decide
  rw [hrender, String.toList_append] at hN
  rcases List.mem_append.1 hN with hN | hN
  · split at hN <;> exact absurd hN (by decide)
  · rcases mem_magnitudeText hN with ⟨-, hword⟩ | ⟨-, hdigit⟩
    · exact absurd hword (by decide)
    · exact absurd hdigit (by decide)

/-- The text of a float has digits, a point and a sign in it, and letters only if it is not finite. -/
theorem mem_render {x : Float} {c : Char} (h : c ∈ (render .plain x).toList) :
    c.isDigit = true ∨ c ∈ ['.', '-', 'i', 'n', 'f', 'N', 'a'] := by
  cases hx : x.isNaN with
  | true =>
    have hNaN : render .plain x = "NaN" := if_pos hx
    rw [hNaN] at h
    have hword : "NaN".toList ⊆ ['.', '-', 'i', 'n', 'f', 'N', 'a'] := by simp
    exact .inr (hword h)
  | false =>
    rw [(render_of_not_isNaN hx).1, String.toList_append] at h
    rcases List.mem_append.1 h with h | h
    · split at h
      · exact .inr (List.mem_singleton.1 h ▸ by decide)
      · cases h
    · rcases mem_magnitudeText h with ⟨-, h⟩ | ⟨-, hdigit | rfl⟩
      · have hword : ['i', 'n', 'f'] ⊆ ['.', '-', 'i', 'n', 'f', 'N', 'a'] := by simp
        exact .inr (hword h)
      · exact .inl hdigit
      · exact .inr (by decide)

/-- Every float has a text of its own. -/
theorem render_injective {x y : Float} (h : render .plain x = render .plain y) : x = y := by
  have hNaN {z : Float} (hz : z.isNaN = true) : render .plain z = "NaN" := if_pos hz
  apply eq_of_toBits
  cases hx : x.isNaN <;> cases hy : y.isNaN
  · obtain ⟨hrx, hlx⟩ := render_of_not_isNaN hx
    obtain ⟨hry, hly⟩ := render_of_not_isNaN hy
    rw [hrx, hry] at h
    have hdash {k : Nat} : '-' ∉ (magnitudeText k).toList := by
      intro hc
      rcases mem_magnitudeText hc with ⟨-, hword⟩ | ⟨-, hdigit⟩
      · exact absurd hword (by decide)
      · exact absurd hdigit (by decide)
    have hsign : signBit = 0x8000000000000000 := rfl
    have hbx := x.toBits.toNat_lt
    have hby := y.toBits.toNat_lt
    have hlist := congrArg String.toList h
    rw [String.toList_append, String.toList_append] at hlist
    split at hlist <;> split at hlist
    · have hmag := magnitudeText_inj hlx hly (String.toList_inj.1 (List.append_cancel_left hlist))
      rw [hsign] at hmag
      omega
    · exact absurd (hlist ▸ List.mem_append_left _ (by decide) : '-' ∈ _) hdash
    · exact absurd (hlist.symm ▸ List.mem_append_left _ (by decide) : '-' ∈ _) hdash
    · have hmag := magnitudeText_inj hlx hly (String.toList_inj.1 (List.append_cancel_left hlist))
      rw [hsign] at hmag
      omega
  · exact absurd (h.trans (hNaN hy)) (NaN_ne_render hx)
  · exact absurd (h.symm.trans (hNaN hx)) (NaN_ne_render hy)
  · rw [toBits_of_isNaN hx, toBits_of_isNaN hy]

end Funclet.Decimal
