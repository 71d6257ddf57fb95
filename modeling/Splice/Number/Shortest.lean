import Splice.Number.Binary64
/-!
# The shortest decimal of a float

The text of a float has **the fewest digits that read back as that float**.  The reals that round to a positive float
`m · 2 ^ q` form an interval; its ends belong to it when `m` is even.  The multiples of a power of ten form a grid; the
grid is coarser the larger the power.  `shortest` goes from coarse to fine and stops at the first grid with a point in
the interval.  If a grid has such a point then one of the two grid points around the float is one, so only those two
are tried: of two hits the nearer is taken, and of two equally near ones the upper.

All of it is integer arithmetic: the float, the interval and the grid are scaled by the same power of two.
-/
namespace Splice

/-- The positive decimal `digits · 10 ^ exponent`. -/
structure Decimal where
  digits : Nat
  exponent : Int

namespace Shortest

/-- A positive float with the reals that round to it, as multiples of a common unit: the float is `value`, and the
interval goes from `low` to `high`. -/
structure Interval where
  low : Nat
  value : Nat
  high : Nat
  closed : Bool
  /-- The unit is `2 ^ unit`. -/
  unit : Int

/-- The interval of `m · 2 ^ q`.  The lower neighbour of a power of two is nearer than the upper one. -/
def Interval.of (m : Nat) (q : Int) : Interval where
  low := if m = Binary64.fullMantissa then 4 * m - 1 else 4 * m - 2
  value := 4 * m
  high := 4 * m + 2
  closed := m % 2 = 0
  unit := q - 2

/-- Whether `point` lies in the interval, the interval being scaled by `s`. -/
def Interval.meets (i : Interval) (s point : Nat) : Bool :=
  if i.closed then i.low * s ≤ point && point ≤ i.high * s
  else i.low * s < point && point < i.high * s

def tenTo (k : Nat) : Nat := Nat.pow 10 k

/-- The point of the grid of `10 ^ k` that is in the interval and nearest to the value. -/
def gridPoint (i : Interval) (k : Int) : Option Decimal :=
  let scale := tenTo (-k).toNat <<< i.unit.toNat
  let step := tenTo k.toNat <<< (-i.unit).toNat
  let value := i.value * scale
  let below := value / step
  let lower := i.meets scale (below * step)
  let upper := i.meets scale ((below + 1) * step)
  if upper && (!lower || 2 * (value % step) ≥ step) then some ⟨below + 1, k⟩
  else if lower then some ⟨below, k⟩
  else none

/-- The point found on the coarsest of the `n` grids from `10 ^ k` downwards that has one. -/
def coarsest (i : Interval) : Nat → Int → Option Decimal
  | 0, _ => none
  | n + 1, k =>
    match gridPoint i k with
    | some d => some d
    | none => coarsest i n (k - 1)

/-- A power of ten above `m · 2 ^ q`, from three tenths of the binary exponent. -/
def topExponent (m : Nat) (q : Int) : Int := (q + m.log2 + 1) * 30103 / 100000 + 1

/-- The shortest decimal of a positive float.  Seventeen digits always read back, so one of twenty grids has a point;
the exact decimal would stand for it otherwise. -/
def shortest (m : Nat) (q : Int) : Decimal :=
  (coarsest (Interval.of m q) 20 (topExponent m q)).getD ⟨(m <<< q.toNat) * Nat.pow 5 (-q).toNat, min q 0⟩

end Shortest

end Splice
