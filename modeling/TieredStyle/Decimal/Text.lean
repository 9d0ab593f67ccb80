import TieredStyle.Decimal.Shortest

/-! Binary numbers as decimal texts. -/
namespace TieredStyle.Decimal

/-- A number is written out where its decimal point falls after more than `after` and at most `upTo`
digits, and with an exponent elsewhere; `plus` stands before an exponent that is not negative. -/
structure Format where
  after : Int
  upTo : Int
  plus : String

def zeros (n : Int) : String := String.ofList (List.replicate n.toNat '0')

/-- An exponent with its mark and its sign. -/
def Format.exponent (f : Format) (n : Int) : String :=
  "e" ++ (if 0 ≤ n then f.plus else "") ++ toString n

/-- The text of `digits * 10 ^ k`, with at least one decimal if it is written out. -/
def Format.decimal (f : Format) (digits : Nat) (k : Int) : String :=
  let ds := toString digits
  let point := ds.length + k
  let (front, back) := (ds.toList.take point.toNat, ds.toList.drop point.toNat)
  if f.after < point ∧ point ≤ f.upTo then
    if 0 ≤ k then ds ++ zeros k ++ ".0"
    else if 0 < point then String.ofList front ++ "." ++ String.ofList back
    else "0." ++ zeros (-point) ++ ds
  else
    let tail := ds.toList.drop 1
    String.ofList (ds.toList.take 1) ++ (if tail.isEmpty then "" else "." ++ String.ofList tail) ++
      f.exponent (point - 1)

/-- The shortest text that reads back as the number with this sign. -/
def Format.text (f : Format) (negative : Bool) (x : Binary64) : String :=
  (if negative then "-" else "") ++
    if x.m = 0 then "0.0" else let (digits, k) := shortest x; f.decimal digits k

end TieredStyle.Decimal
