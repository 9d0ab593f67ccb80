import TieredStyle.Decimal.Binary64
import TieredStyle.Parsed

/-! The numbers of JSON: how they are written, and what they are read as. -/
namespace TieredStyle.Json
open TieredStyle.Decimal

/-- A number as written; there are digits after the point if and only if there is one. -/
structure Numeral where
  negative : Bool
  whole : List Char
  fraction : List Char
  /-- Whether the exponent is negative, and its digits. -/
  exponent : Option (Bool × List Char)

/-- The longest run of digits. -/
def takeDigits (cs : List Char) : Parsed Char (List Char) cs.length :=
  ⟨cs.takeWhile Char.isDigit, cs.dropWhile Char.isDigit, (List.dropWhile_suffix _).length_le⟩

/-- The sign before a whole part, which is a minus or nothing. -/
def takeMinus (cs : List Char) : Parsed Char Bool cs.length :=
  match cs with
  | '-' :: cs => .one true cs
  | cs => .unread false cs

/-- The sign of an exponent. -/
def takeSign (cs : List Char) : Parsed Char Bool cs.length :=
  match cs with
  | '-' :: cs => .one true cs
  | '+' :: cs => .one false cs
  | cs => .unread false cs

def takeFraction (cs : List Char) : Option (Parsed Char (List Char) cs.length) :=
  match cs with
  | '.' :: cs =>
    let ds := takeDigits cs
    if ds.value.isEmpty then none else some ds.behindOne
  | cs => some (.unread [] cs)

def takeExponent (cs : List Char) : Option (Parsed Char (Option (Bool × List Char)) cs.length) :=
  match cs with
  | [] => some ⟨none, [], Nat.le_refl _⟩
  | c :: cs =>
    if c = 'e' ∨ c = 'E' then
      let ⟨negative, rest, h⟩ := takeSign cs
      let ⟨ds, rest', h'⟩ := takeDigits rest
      if ds.isEmpty then none
      else some ⟨some (negative, ds), rest', Nat.le_succ_of_le (Nat.le_trans h' h)⟩
    else some ⟨none, c :: cs, Nat.le_refl _⟩

/-- The number at the start of a text. A zero in front of other digits is not allowed. -/
def takeNumeral (cs : List Char) : Option (Parsed Char Numeral cs.length) := do
  let ⟨negative, rest₀, h₀⟩ := takeMinus cs
  let ⟨whole, rest₁, h₁⟩ := takeDigits rest₀
  if whole.isEmpty || (whole.head? = some '0' && whole.length ≠ 1) then none
  let ⟨fraction, rest₂, h₂⟩ ← takeFraction rest₁
  let ⟨exponent, rest₃, h₃⟩ ← takeExponent rest₂
  return ⟨⟨negative, whole, fraction, exponent⟩, rest₃, by omega⟩

/-! ## Values -/

/-- A number as read: whole if it is written so and has room in 64 bits, else binary. -/
inductive Number
  | natural (n : Nat)
  | negative (n : Nat)
  | binary (negative : Bool) (x : Binary64)
deriving DecidableEq, Inhabited

def digitValue (d : Char) : Nat := d.toNat - '0'.toNat

def digitsValue (ds : List Char) : Nat := ds.foldl (fun n d => 10 * n + digitValue d) 0

/-- Takes digits into a number as long as it stays below `2 ^ 64`, and counts them. -/
def absorb (n : Nat) : List Char → Nat × Nat
  | [] => (n, 0)
  | d :: ds =>
    if 10 * n + digitValue d < Nat.pow 2 64 then
      let (n', count) := absorb (10 * n + digitValue d) ds
      (n', count + 1)
    else (n, 0)

/-- `x / 10 ^ k`, in steps that stay within the range of powers of ten. -/
def scaleDown (x : Binary64) (k : Nat) : Option Binary64 :=
  if k ≤ 308 then x.divPowTen k
  else if x.m = 0 then some x
  else do scaleDown (← x.divPowTen 308) (k - 308)
termination_by k

/-- The binary number for `n * 10 ^ e`, `none` if it is too great. -/
def scaled? (n : Nat) (e : Int) : Option Binary64 := do
  let x ← Binary64.ofRatio n 1
  if e < 0 then scaleDown x (-e).toNat
  else if e ≤ 308 then x.mulPowTen e.toNat
  else if x.m = 0 then some x
  else none

/-- What a numeral is read as, `none` if it is out of range. Digits beyond the room of 64 bits count
as zeros in the whole part and not at all in the fraction. An exponent beyond 31 bits makes a number
too great or zero. -/
def Numeral.value? (x : Numeral) : Option Number := do
  let (n, used) := absorb 0 x.whole
  let (n', used') := absorb n x.fraction
  let shift : Int := (x.whole.length - used : Nat) - (used' : Int)
  if x.fraction.isEmpty ∧ x.exponent.isNone ∧ used = x.whole.length then
    if !x.negative then return .natural n
    else if 1 ≤ n ∧ n ≤ Nat.pow 2 63 then return .negative n
    else return .binary true (← scaled? n 0)
  else match x.exponent with
    | none => return .binary x.negative (← scaled? n' shift)
    | some (down, ds) =>
      let e := digitsValue ds
      if e < Nat.pow 2 31 then
        return .binary x.negative (← scaled? n' (if down then shift - e else shift + e))
      else if n' = 0 ∨ down then return .binary x.negative .zero
      else none

end TieredStyle.Json
