/-! The finite numbers of 64-bit binary floating point, with their rounding to nearest. -/
namespace TieredStyle.Decimal

/-- The quotient rounded to the nearest integer, and to the even one of two that are as near. -/
def roundDiv (n d : Nat) : Nat :=
  let k := n / d
  let r := n % d
  if 2 * r < d then k else if d < 2 * r then k + 1 else if k % 2 = 0 then k else k + 1

/-- The number `m * 2 ^ q` without a sign. -/
structure Binary64 where
  m : Nat
  q : Int
deriving DecidableEq, Inhabited

namespace Binary64

def zero : Binary64 := ⟨0, -1074⟩

/-- Numerator of the value. -/
def num (x : Binary64) : Nat := x.m * Nat.pow 2 x.q.toNat

/-- Denominator of the value. -/
def den (x : Binary64) : Nat := Nat.pow 2 (-x.q).toNat

/-- The greatest `e` with `2 ^ e ≤ n / d`, for positive numbers. -/
def exponentOf (n d : Nat) : Int :=
  let e : Int := (n.log2 : Int) - d.log2
  if n * Nat.pow 2 (-e).toNat < d * Nat.pow 2 e.toNat then e - 1 else e

/-- The number nearest to `n / d`, with 53 bits or fewer at the small end; `none` where that is
beyond the greatest. -/
def ofRatio (n d : Nat) : Option Binary64 :=
  if n = 0 then some zero
  else
    let q := max (-1074) (exponentOf n d - 52)
    let m := roundDiv (n * Nat.pow 2 (-q).toNat) (d * Nat.pow 2 q.toNat)
    let x : Binary64 := if m = Nat.pow 2 53 then ⟨Nat.pow 2 52, q + 1⟩ else ⟨m, q⟩
    if 971 < x.q then none else some x

/-- The number nearest to a power of ten. -/
def powTen (k : Nat) : Option Binary64 := ofRatio (Nat.pow 10 k) 1

/-- The rounded product with the number nearest to a power of ten. -/
def mulPowTen (x : Binary64) (k : Nat) : Option Binary64 := do
  let p ← powTen k
  ofRatio (x.num * p.num) (x.den * p.den)

/-- The rounded quotient by the number nearest to a power of ten. -/
def divPowTen (x : Binary64) (k : Nat) : Option Binary64 := do
  let p ← powTen k
  ofRatio (x.num * p.den) (x.den * p.num)

end Binary64
end TieredStyle.Decimal
