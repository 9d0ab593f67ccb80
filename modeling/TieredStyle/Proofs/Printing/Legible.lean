import TieredStyle.Proofs.Grammar.Accepted
import TieredStyle.Proofs.Grammar.Collect
import TieredStyle.Proofs.Lexing.Ink
import TieredStyle.Proofs.Printing.Printed

/-!
# Legible entries

An entry is legible if each of its texts is cut right in front of what is printed after it: the tokens of
the text end there, reach no stop before, and read as the text itself. A stylesheet of legible entries is
read back from its print.
-/
namespace TieredStyle.Css
open TieredStyle.Text

/-- What is printed after a text, with a space before it or without. -/
inductive Tail : Bool → List Char → Prop
  | flush {c : Char} (cs : List Char) : c ∈ ['\x7b', '\x7d', ';', '!'] → Tail false (c :: cs)
  | spaced (cs : List Char) : Tail true (' ' :: cs)

/-- In front of a tail the text is cut into tokens of kinds that satisfy `P`, and reads as itself. -/
def Cut (s : Spacing) (P : List Kind → Prop) (spaced : Bool) (x : String) : Prop :=
  Uncommented x.toList ∧ ∃ ts, (∀ r, Tail spaced r → Token.Settled ts r) ∧ s.tightened ts = ts ∧
    x.toList = Token.spelled ts ∧ P (ts.map (·.kind))

/-- The kinds of a selector: there is no stop outside brackets, and it does not start an at-rule. -/
def Selects (ks : List Kind) : Prop := Passes endsHead 0 ks ∧ ∃ k ks', ks = k :: ks' ∧ k ≠ .atKeyword

namespace Format

def isSpaced : Format → Bool
  | .compact => false
  | .pretty => true

end Format

structure Declaration.Legible (f : Format) (d : Declaration) : Prop where
  property : ∀ r, (⟨.ident, d.property⟩ : Lexeme).Stops (':' :: r)
  uncommented : Uncommented d.property.toList
  value : Cut .value (Passes endsValue 0) (f.isSpaced && d.value.important) d.value.text

/-- The start of an at-rule, before parameters in front of a tail. -/
structure HeadLegible (spaced : Bool) (name params : String) : Prop where
  keyword : ∀ r, Ends r → (⟨.atKeyword, String.ofList ('@' :: name.toList)⟩ : Lexeme).Stops r
  uncommented : Uncommented name.toList
  params : Cut .params (Passes endsHead 0) spaced params

mutual
/-- An entry of the `depth`-th block inside one another. -/
def Item.Legible (f : Format) (depth : Nat) : Item → Prop
  | .rule selector body => Cut .selector Selects f.isSpaced selector ∧ ∀ d ∈ body, d.Legible f
  | .statement name params => HeadLegible false name params
  | .descriptors name params body =>
    holdsItems name = false ∧ HeadLegible f.isSpaced name params ∧ ∀ d ∈ body, d.Legible f
  | .group name params body =>
    holdsItems name = true ∧ depth < maxNesting ∧ HeadLegible f.isSpaced name params ∧
      ItemsLegible f (depth + 1) body

def ItemsLegible (f : Format) (depth : Nat) : List Item → Prop
  | [] => True
  | item :: items => item.Legible f depth ∧ ItemsLegible f depth items
end

/-! ## Scanning what is printed -/

theorem Tail.ends {spaced : Bool} {r : List Char} (h : Tail spaced r) : Ends r := by
  cases h with
  | flush cs hc =>
      simp only [List.mem_cons, List.not_mem_nil, or_false] at hc
      rcases hc with rfl | rfl | rfl | rfl <;> exact ends_cons.2 (by decide)
  | spaced cs => exact ends_cons.2 (by decide)

namespace Format

theorem tail_space (f : Format) {c : Char} (hc : c ∈ ['\x7b', '\x7d', ';', '!']) (r : List Char) :
    Tail f.isSpaced (f.space ++ c :: r) := by
  cases f with
  | compact => exact .flush r hc
  | pretty => exact .spaced (c :: r)

theorem tail_block (f : Format) (depth : Nat) (isEmpty : Bool) (contents r : List Char) :
    Tail f.isSpaced (f.block depth isEmpty contents ++ r) := by
  rw [block, List.append_assoc]
  exact f.tail_space (by decide) _

end Format

namespace Token

theorem scan_mark {m : Mark} (h : m ≠ .dot) (pos : Position) (b : Bool) (r : List Char) :
    ∃ t pos', t.kind = .mark m ∧ scan pos b (m.char :: r) = t :: scan pos' false r := by
  have hs := scan_stops (stops_mark h r) pos b
  rw [String.toList_singleton] at hs
  exact ⟨_, _, rfl, hs⟩

/-- A mark is read with the blanks behind it. -/
theorem scan_mark_blanks {m : Mark} (h : m ≠ .dot) {w : List Char} (hw : ∀ c ∈ w, isBlank c = true)
    (pos : Position) (b : Bool) (r : List Char) : ∃ t pos' b', t.kind = .mark m ∧
      scan pos b (m.char :: (w ++ r)) = t :: scan pos' b' r := by
  obtain ⟨t, pos₁, ht, hscan⟩ := scan_mark h pos b (w ++ r)
  obtain ⟨pos', b', hblanks⟩ := scan_blanks hw pos₁ false r
  exact ⟨t, pos', b', ht, hblanks ▸ hscan⟩

/-- A closing brace is read with its margin and the line's end. -/
theorem scan_close (f : Format) (depth : Nat) (pos : Position) (b : Bool) (r : List Char) :
    ∃ t pos' b', t.kind = .mark .braceClose ∧
      scan pos b (f.margin depth ++ '\x7d' :: (f.newline ++ r)) = t :: scan pos' b' r := by
  obtain ⟨pos₁, b₁, hmargin⟩ :=
    scan_blanks (f.blank_margin depth) pos b ('\x7d' :: (f.newline ++ r))
  obtain ⟨t, pos', b', ht, hscan⟩ :=
    scan_mark_blanks (m := .braceClose) (by decide) f.blank_newline pos₁ b₁ r
  exact ⟨t, pos', b', ht, hmargin.trans hscan⟩

end Token

theorem Cut.cuts {s : Spacing} {P : List Kind → Prop} {spaced : Bool} {x : String}
    (h : Cut s P spaced x) {r : List Char} (hr : Tail spaced r) :
    Token.Cuts x.toList r fun us => s.join us = x ∧ P (us.map (·.kind)) := by
  obtain ⟨_, ts, hts, htight, hx, hP⟩ := h
  rw [hx]
  refine (Token.cuts_spelled (hts r hr)).imp fun us hus => ⟨?_, ?_⟩
  · rw [Spacing.join_of_bare hus, ← String.toList_inj, Spacing.toList_join, htight, hx]
  · rw [Token.kind_of_bare hus]
    exact hP

end TieredStyle.Css
