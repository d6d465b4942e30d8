import Funclet.Decimal.Shortest

/-!
# Reading numbers

* `ofDigits`: the number that digits with at most one point spell, as in a number literal.
* `float?`: the float that a text spells, with a sign, an exponent, or one of the words for infinity
  and for what is not a number.

The float is always the one nearest to the number written, and of two equally near the even one.
-/

namespace Funclet.Decimal

def natOfDigits (ds : List Char) : Nat :=
  ds.foldl (fun n c => 10 * n + (c.toNat - 48)) 0

/-- The float nearest to `digits · 10 ^ exponent`. -/
def nearest (d : Decimal) : Float :=
  Float.ofScientific d.digits (decide (d.exponent < 0)) d.exponent.natAbs

/-- The number spelled by the digits before and after a point. -/
def ofParts (whole fraction : List Char) : Decimal :=
  ⟨natOfDigits (whole ++ fraction), -(fraction.length : Int)⟩

/-- The number spelled by digits with at most one point among them. -/
def ofDigits (run : List Char) : Decimal :=
  ofParts (run.takeWhile (· != '.')) ((run.dropWhile (· != '.')).drop 1)

/-- An exponent, `e` and an integer with or without a sign. The absence of one counts as zero. -/
def exponent? : List Char → Option Int
  | [] => some 0
  | c :: cs =>
    if c = 'e' ∨ c = 'E' then
      let (negative, ds) := match cs with
        | '-' :: ds => (true, ds)
        | '+' :: ds => (false, ds)
        | ds => (false, ds)
      if ds ≠ [] ∧ ds.all Char.isDigit then
        some (if negative then -(natOfDigits ds : Int) else natOfDigits ds)
      else none
    else none

/-- A number without a sign: digits with at most one point, at least one digit, then an exponent. -/
def unsigned? (cs : List Char) : Option Decimal :=
  let whole := cs.takeWhile Char.isDigit
  let rest := cs.dropWhile Char.isDigit
  let (fraction, rest) := match rest with
    | '.' :: ds => (ds.takeWhile Char.isDigit, ds.dropWhile Char.isDigit)
    | _ => ([], rest)
  if whole = [] ∧ fraction = [] then none
  else (exponent? rest).map fun e =>
    let d := ofParts whole fraction
    ⟨d.digits, d.exponent + e⟩

def magnitude? (cs : List Char) : Option Float :=
  let word := cs.map Char.toLower
  if word = ['i', 'n', 'f'] ∨ word = ['i', 'n', 'f', 'i', 'n', 'i', 't', 'y'] then
    some (Float.ofBits 0x7ff0000000000000)
  else if word = ['n', 'a', 'n'] then some (Float.ofBits 0x7ff8000000000000)
  else (unsigned? cs).map nearest

def float? (s : String) : Option Float :=
  match s.toList with
  | '-' :: cs => (magnitude? cs).map (-·)
  | '+' :: cs => magnitude? cs
  | cs => magnitude? cs

end Funclet.Decimal
