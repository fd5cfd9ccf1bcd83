/-!
# The fewest digits that read back

A reader of decimals takes each number to the nearest double, a tie to the even significand. The
decimals that read as one double form an interval around it. `Interval.shortest` finds the decimal
with the fewest digits in that interval, and of two with equally few the one nearer to the double;
an exact tie goes up. All arithmetic is on whole numbers, scaled by one common power of ten.
-/

namespace StackLang.Double

/-- The number `coefficient · 10 ^ exponent`. -/
structure Decimal where
  coefficient : Nat
  exponent : Int

/-- The numbers that read as one double, scaled: `low`, `mid` and `high` each stand for themselves
times `10 ^ exponent`, and `mid` is the double. -/
structure Interval where
  low : Nat
  mid : Nat
  high : Nat
  exponent : Int
  /-- The ends read as this double too. -/
  closed : Bool

namespace Interval

/-- The interval around `significand · 2 ^ power`. Both ends lie half way to the neighbour; the
neighbour below a power of two is `near`, at half the distance. The ends tie to the even
significand, so they belong to it. Four times the significand makes them all whole. -/
def around (significand : Nat) (power : Int) (near : Bool) : Interval :=
  let scale := if 2 ≤ power then 1 <<< (power - 2).toNat else Nat.pow 5 (2 - power).toNat
  { low := (4 * significand - if near then 1 else 2) * scale
    mid := 4 * significand * scale
    high := (4 * significand + 2) * scale
    exponent := min (power - 2) 0
    closed := significand % 2 = 0 }

def contains (i : Interval) (n : Nat) : Bool :=
  if i.closed then i.low ≤ n && n ≤ i.high else i.low < n && n < i.high

/-- The best decimal on the grid of multiples of `10 ^ k`, or else on the next finer grid that has
one. The two neighbours of the double are the only candidates; the grid of ones holds the double
itself. -/
def onGrid (i : Interval) : Nat → Decimal
  | 0 => ⟨i.mid, i.exponent⟩
  | k + 1 =>
    let grid := Nat.pow 10 (k + 1)
    let below := i.mid / grid
    match i.contains (below * grid), i.contains ((below + 1) * grid) with
    | true, true =>
      ⟨if 2 * (i.mid % grid) < grid then below else below + 1, i.exponent + (k + 1)⟩
    | true, false => ⟨below, i.exponent + (k + 1)⟩
    | false, true => ⟨below + 1, i.exponent + (k + 1)⟩
    | false, false => i.onGrid k

/-- The decimal with the fewest digits. Ten to a third of the bits is above the double, so every
grid that can have a candidate is tried, from the coarsest on. -/
def shortest (i : Interval) : Decimal := i.onGrid (i.mid.log2 / 3 + 1)

end Interval

end StackLang.Double
