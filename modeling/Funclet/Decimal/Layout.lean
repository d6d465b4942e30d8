import Funclet.Decimal.Shortest

/-!
# Number layouts

The three ways in which floats are written. All take the shortest digits that read back; they differ
in where positional notation ends and in what an integral value looks like.

* `plain`: always positional, as in program output (`1`, `0.00001`).
* `exact`: a float is never written like an integer (`1.0`, `1e-5`), as in token dumps.
* `json`: the same with a wider positional range and signed exponents (`1e+16`).
-/

namespace Funclet.Decimal

/-- The decisions of a number format. -/
structure Layout where
  tie : Tie
  /-- Whether a number whose first digit has the value `10 ^ e` is written without an exponent. -/
  positional : Int → Bool
  /-- Whether an integral value in positional notation ends in `.0`. -/
  pointZero : Bool
  /-- Whether an exponent that is not negative has a plus sign. -/
  plusSign : Bool

/-- Positional everywhere, integers without a point. -/
def Layout.plain : Layout := ⟨.up, fun _ => true, false, false⟩

/-- Positional from `0.0001` up to `10 ^ 16`. -/
def Layout.exact : Layout := ⟨.up, fun e => -4 ≤ e && e < 16, true, false⟩

/-- Positional from `0.00001` up to `10 ^ 16`. -/
def Layout.json : Layout := ⟨.even, fun e => -5 ≤ e && e < 16, true, true⟩

def zeros (n : Nat) : String := String.ofList (List.replicate n '0')

/-- Digits with the decimal point after the first `point` of them; zeros fill what is missing. -/
def positionalText (l : Layout) (ds : List Char) (point : Int) : String :=
  if point ≤ 0 then "0." ++ zeros (-point).toNat ++ String.ofList ds
  else if (ds.length : Int) ≤ point then
    String.ofList ds ++ zeros (point.toNat - ds.length) ++ (if l.pointZero then ".0" else "")
  else String.ofList (ds.take point.toNat) ++ "." ++ String.ofList (ds.drop point.toNat)

/-- Digits with the point after the first, and the exponent `e`. -/
def exponentText (l : Layout) (ds : List Char) (e : Int) : String :=
  let fraction := if ds.length ≤ 1 then "" else "." ++ String.ofList (ds.drop 1)
  let sign := if e < 0 then "-" else if l.plusSign then "+" else ""
  String.ofList (ds.take 1) ++ fraction ++ "e" ++ sign ++ toString e.natAbs

def write (l : Layout) (d : Decimal) : String :=
  let ds := Nat.toDigits 10 d.digits
  let point := (ds.length : Int) + d.exponent
  if l.positional (point - 1) then positionalText l ds point
  else exponentText l ds (point - 1)

/-- The bit that is set in negative numbers. -/
def signBit : Nat := 0x8000000000000000

def render (l : Layout) (x : Float) : String :=
  if x.isNaN then "NaN"
  else
    let bits := x.toBits.toNat
    let sign := if signBit ≤ bits then "-" else ""
    let magnitude := bits % signBit
    if x.isInf then sign ++ "inf"
    else if magnitude = 0 then sign ++ (if l.pointZero then "0.0" else "0")
    else sign ++ write l ((Binary.ofBits magnitude).shortest l.tie)

end Funclet.Decimal
