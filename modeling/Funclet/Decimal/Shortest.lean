/-!
# Shortest digits

A finite float is `m · 2 ^ q`. The reals that round to it form an interval around it, and any decimal
in that interval reads back as the float. `shortest` finds the decimal there with the fewest digits,
and of those the nearest.

* `Binary`: a positive finite float as a mantissa and an exponent.
* `Decimal`: a number `digits · 10 ^ exponent`.
* `Binary.onGrid`: the multiple of `10 ^ p` that reads back and is nearest, if there is one.
* `Binary.shortest`: the answer on the coarsest grid that has one.

All arithmetic is exact, on natural numbers.
-/

namespace Funclet

/-- The number `digits · 10 ^ exponent`. -/
structure Decimal where
  digits : Nat
  exponent : Int
deriving DecidableEq, Repr, Inhabited

namespace Decimal

/-- What to take when two decimals with equally few digits are equally near. -/
inductive Tie where
  | up
  | even
deriving DecidableEq, Repr

/-- The magnitude `mantissa · 2 ^ exponent` of a finite float. At a power of two the gap to the next
smaller float is half the gap to the next larger one, which `narrow` records. -/
structure Binary where
  mantissa : Nat
  exponent : Int
  narrow : Bool
deriving DecidableEq, Repr, Inhabited

namespace Binary

/-- The mantissa that is one, when the fraction has 52 bits. -/
def unit : Nat := 0x10000000000000

/-- Splits the 64 bits of a finite float into fraction and exponent; the sign is dropped. -/
def ofBits (bits : Nat) : Binary :=
  let e : Nat := bits / unit % 0x800
  let f : Nat := bits % unit
  if e = 0 then ⟨f, -1074, false⟩
  else ⟨f + unit, (e : Int) - 1075, f == 0 && 1 < e⟩

/-- Two numbers `u`, `w` with `u / w = 10 ^ p / 2 ^ (exponent - 2)`: the step of the grid of multiples
of `10 ^ p`, and a quarter of the float's last place, in a common unit. -/
def scales (b : Binary) (p : Int) : Nat × Nat :=
  let q := b.exponent - 2
  (Nat.pow 10 p.toNat * Nat.pow 2 (-q).toNat, Nat.pow 10 (-p).toNat * Nat.pow 2 q.toNat)

/-- Whether `x` reads back as the float, all in the unit of `scales`. The ends of the interval belong
to it exactly when the mantissa is even. -/
def covers (b : Binary) (w x : Nat) : Bool :=
  let lo := (4 * b.mantissa - if b.narrow then 1 else 2) * w
  let hi := (4 * b.mantissa + 2) * w
  if b.mantissa % 2 = 0 then lo ≤ x && x ≤ hi else lo < x && x < hi

/-- The multiple of `10 ^ p` that reads back as the float and is nearest to it. Only the float's two
neighbours on the grid can be. -/
def onGrid (b : Binary) (tie : Tie) (p : Int) : Option Nat :=
  let (u, w) := b.scales p
  let v := 4 * b.mantissa * w
  let d := v / u
  let rest := v % u
  match b.covers w (d * u), b.covers w ((d + 1) * u) with
  | false, false => none
  | true, false => some d
  | false, true => some (d + 1)
  | true, true =>
    if 2 * rest < u then some d
    else if u < 2 * rest then some (d + 1)
    else match tie with
      | .up => some (d + 1)
      | .even => some (if d % 2 = 0 then d else d + 1)

/-- Tries the grids `10 ^ p`, `10 ^ (p - 1)`, and so on, `n` of them. -/
def search (b : Binary) (tie : Tie) : Nat → Int → Decimal
  | 0, p => ⟨4 * b.mantissa * (b.scales p).2 / (b.scales p).1, p⟩
  | n + 1, p =>
    match b.onGrid tie p with
    | some d => ⟨d, p⟩
    | none => b.search tie n (p - 1)

/-- The decimal with the fewest digits that reads back, for a float other than zero. The first grid
is coarser than the float is large, and seventeen digits always suffice. -/
def shortest (b : Binary) (tie : Tie) : Decimal :=
  b.search tie 24 (((b.mantissa.log2 : Int) + 1 + b.exponent) * 30103 / 100000 + 2)

end Binary

end Decimal

end Funclet
