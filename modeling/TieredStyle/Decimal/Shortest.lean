import TieredStyle.Decimal.Binary64

/-! The fewest decimal digits that read back as a given binary number. -/
namespace TieredStyle.Decimal
open Binary64

/-- The multiple of `10 ^ k` nearest to `x` among those that read back as `x`, divided by `10 ^ k`.
The numbers that read back as `x` reach half way to its neighbours, ends included if `m` is even;
the lower neighbour is nearer where `m` is the least of its binade. -/
def onGrid? (x : Binary64) (k : Int) : Option Nat :=
  let step := Nat.pow 10 k.toNat * Nat.pow 2 (2 - x.q).toNat
  let unit := Nat.pow 2 (x.q - 2).toNat * Nat.pow 10 (-k).toNat
  let low := (4 * x.m - if x.m = Nat.pow 2 52 ∧ -1074 < x.q then 1 else 2) * unit
  let high := (4 * x.m + 2) * unit
  let value := 4 * x.m * unit
  let readsBack (d : Nat) : Bool :=
    if x.m % 2 = 0 then low ≤ d * step && d * step ≤ high else low < d * step && d * step < high
  let nearest := roundDiv value step
  let other := if nearest = value / step then nearest + 1 else value / step
  if readsBack nearest then some nearest else if readsBack other then some other else none

/-- The first grid among those of `10 ^ k`, `10 ^ (k - 1)` and so on that has a number that reads
back as `x`. -/
def firstGrid (x : Binary64) : Nat → Int → Nat × Int
  | 0, k => (0, k)
  | n + 1, k =>
    match onGrid? x k with
    | some d => (d, k)
    | none => firstGrid x n (k - 1)

/-- Digits and exponent of the shortest decimal that reads back as `x`, which is not zero. -/
def shortest (x : Binary64) : Nat × Int := firstGrid x 633 308

end TieredStyle.Decimal
