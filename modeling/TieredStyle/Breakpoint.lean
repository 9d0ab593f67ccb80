import TieredStyle.Text.Digit

/-! The tiers of screen widths, and the media queries that stand for them. -/
namespace TieredStyle
open TieredStyle.Text

/-- A tier of screen widths; `base` holds at every width. -/
inductive Breakpoint
  | base | xl | lg | md | sm | xs
deriving DecidableEq, Inhabited

namespace Breakpoint

/-- Widest first: the order in which tiers are written, so that narrower ones override. -/
def all : List Breakpoint := [.base, .xl, .lg, .md, .sm, .xs]

/-- The tiers with a bound, narrowest first. -/
def ascending : List Breakpoint := [.xs, .sm, .md, .lg, .xl]

def key : Breakpoint → String
  | .base => "default"
  | .xl => "xl"
  | .lg => "lg"
  | .md => "md"
  | .sm => "sm"
  | .xs => "xs"

def ofKey? (k : String) : Option Breakpoint := all.find? (·.key = k)

/-- The greatest width of a tier, in pixels. -/
def maxWidth? : Breakpoint → Option Nat
  | .base => none
  | .xl => some 1400
  | .lg => some 1200
  | .md => some 992
  | .sm => some 768
  | .xs => some 576

def mediaQuery? (b : Breakpoint) : Option String :=
  b.maxWidth?.map fun w => "(max-width: " ++ toString w ++ "px)"

/-- The narrowest tier that takes a width, and `base` beyond the widest. -/
def ofWidth (w : Nat) : Breakpoint :=
  (ascending.find? fun b => b.maxWidth?.any (w ≤ ·)).getD .base

/-- The media query of a key; `none` for the base tier and for keys that name no tier. -/
def queryOfKey? (k : String) : Option String := (ofKey? k).bind mediaQuery?

/-! ## The width that a media query names -/

/-- Drops `word` from the front of a text, with ASCII letters in any case. -/
def dropWord? (word cs : List Char) : Option (List Char) :=
  if (cs.take word.length).map Char.toLower = word then some (cs.drop word.length) else none

/-- The digits of `max-width: Npx` at the front of a text. -/
def widthDigits? (cs : List Char) : Option (List Char) := do
  let cs := (← dropWord? "max-width:".toList cs).dropWhile isWhiteSpace
  let digits := cs.takeWhile isDecimalDigit
  if digits.isEmpty then none
  let _ ← dropWord? ['p', 'x'] (cs.dropWhile isDecimalDigit)
  return digits

/-- The value of decimal digits, if all of them are ASCII. -/
def asciiValue? (digits : List Char) : Option Nat :=
  if digits.all Char.isDigit then
    some (digits.foldl (fun n d => 10 * n + (d.toNat - '0'.toNat)) 0)
  else none

/-- The width in the leftmost `max-width: Npx` of a text. Further ones do not count, even where the
first has digits of another script. -/
def width? : List Char → Option Nat
  | [] => none
  | c :: cs =>
    match widthDigits? (c :: cs) with
    | some digits => asciiValue? digits
    | none => width? cs

/-- The tier that a media query stands for, `base` if it names no width. -/
def ofMedia (query : String) : Breakpoint :=
  match width? query.toList with
  | some w => ofWidth w
  | none => .base

end Breakpoint
end TieredStyle
