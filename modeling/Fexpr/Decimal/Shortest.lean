/-!
# Shortest decimals

A double stands for every real that rounds to it. Its shortest decimal is a number of the interval
of those reals with the fewest digits, and of two such numbers the nearer one. On the grid of
multiples of `10 ^ k`, if any point lies in the interval, then so does one of the two neighbours of
the double itself; the coarsest grid on which one does gives the shortest decimal.
-/

namespace Fexpr.Decimal

/-- The positive real `num / den`. -/
structure Ratio where
  /-- The numerator. -/
  num : Nat
  /-- The denominator, which is positive. -/
  den : Nat

/-- The reals that round to `value`, between `low` and `high`. All three are multiples of the same
`2 ^ scale`, and the ends belong to the interval if `closed`. -/
structure Interval where
  /-- The lower end. -/
  low : Nat
  /-- The double. -/
  value : Nat
  /-- The upper end. -/
  high : Nat
  /-- The exponent of the common factor. -/
  scale : Int
  /-- Whether the ends round to the double. -/
  closed : Bool

/-- The least mantissa of a double that has all its bits. The fractions of doubles are the numbers
below it. -/
def leastFullMantissa : Nat := Nat.pow 2 52

/-- The interval of the double `mantissa * 2 ^ exponent`. Below a power of two the neighbours are
half as far apart, except where the exponent is the least one. -/
def Interval.of (mantissa : Nat) (exponent : Int) : Interval :=
  let narrow := mantissa = leastFullMantissa ∧ -1074 < exponent
  { low := 4 * mantissa - (if narrow then 1 else 2)
    value := 4 * mantissa
    high := 4 * mantissa + 2
    scale := exponent - 2
    closed := mantissa % 2 = 0 }

/-- `n * 2 ^ scale / 10 ^ k` as a ratio. -/
def onGrid (n : Nat) (scale k : Int) : Ratio :=
  { num := n * Nat.pow 2 scale.toNat * Nat.pow 10 (-k).toNat
    den := Nat.pow 2 (-scale).toNat * Nat.pow 10 k.toNat }

/-- Whether the point `d` of the grid of `10 ^ k` lies in the interval. -/
def Interval.holds (i : Interval) (k : Int) (d : Nat) : Bool :=
  let low := onGrid i.low i.scale k
  let high := onGrid i.high i.scale k
  if i.closed then low.num ≤ d * low.den && d * high.den ≤ high.num
  else low.num < d * low.den && d * high.den < high.num

/-- The point of the grid of `10 ^ k` in the interval that is nearest to the double; the upper one
of two that are equally near. -/
def Interval.nearest? (i : Interval) (k : Int) : Option Nat :=
  let v := onGrid i.value i.scale k
  let d := v.num / v.den
  let up := i.holds k (d + 1)
  if i.holds k d then
    some (if up && v.den ≤ 2 * (v.num - d * v.den) then d + 1 else d)
  else if up then some (d + 1)
  else none

/-- Tries the grids from `10 ^ k` on, each finer than the one before. -/
def Interval.search (i : Interval) : (grids : Nat) → (k : Int) → Nat × Int
  | 0, k => (0, k)
  | grids + 1, k =>
    match i.nearest? k with
    | some d => (d, k)
    | none => i.search grids (k - 1)

/-- The shortest decimal `digits * 10 ^ k` of the double `mantissa * 2 ^ exponent`. The largest
double is below `10 ^ 309`, and each double is a multiple of `10 ^ -1074`, so the search ends. -/
def shortest (mantissa : Nat) (exponent : Int) : Nat × Int :=
  (Interval.of mantissa exponent).search 1400 309

end Fexpr.Decimal
