import TieredStyle.Proofs.Lexing.Aligned
import TieredStyle.Proofs.Lexing.Ink

/-!
# Evenly spaced texts

The tokens of a text join to that text itself exactly if nothing stands between two of them, or a single space where
a space means something. Such a text has no comment in it.
-/
namespace TieredStyle.Css
open TieredStyle.Text

namespace Spacing

/-- Tokens with nothing between them, or with one space where it means something. -/
inductive Even (s : Spacing) : List Token → List Char → Prop
  | nil : Even s [] []
  | last (t : Token) : Even s [t] t.text.toList
  | cons {t u : Token} {ts : List Token} {gap cs : List Char} :
      gap = [] ∨ gap = [' '] ∧ s.tight t.kind u.kind = false → Even s (u :: ts) cs →
      Even s (t :: u :: ts) (t.text.toList ++ (gap ++ cs))

variable {s : Spacing} {ts : List Token} {cs : List Char}

theorem even_join (s : Spacing) (ts : List Token) : s.Even ts (s.join ts).toList := by
  match ts with
  | [] => exact .nil
  | [t] => exact .last t
  | t :: u :: ts =>
      have hgap : (s.gap t u).toList = [] ∨ (s.gap t u).toList = [' '] ∧ s.tight t.kind u.kind = false := by
        rw [gap]
        split
        next h => exact .inr ⟨rfl, by simpa using (Bool.and_eq_true_iff.1 h).2⟩
        next => exact .inl rfl
      rw [join, String.toList_append, String.toList_append, List.append_assoc]
      exact .cons hgap (s.even_join (u :: ts))

theorem Even.ink (h : s.Even ts cs) : ink cs = Token.inks ts := by
  induction h with
  | nil => rfl
  | last t => simp
  | @cons t u ts gap cs hgap _ ih =>
      have hink : Css.ink gap = 0 := by
        rcases hgap with rfl | ⟨rfl, _⟩ <;> rfl
      rw [ink_append, ink_append, hink, ih, Nat.zero_add, Token.inks_cons t]

/-- What comes first in a text is not spaced, unless blanks stand before the text. -/
theorem spaced_of_scan {pos : Position} {b : Bool} {t : Token}
    (h : s.Even (t :: ts) cs) (hscan : Token.scan pos b cs = t :: ts) : t.spaced = b := by
  obtain ⟨r, rfl⟩ : ∃ r, cs = t.text.toList ++ r := by
    cases h with
    | last => exact ⟨[], (List.append_nil _).symm⟩
    | cons => exact ⟨_, rfl⟩
  obtain ⟨hstops, _⟩ := Token.scan_eq_cons_of_text hscan
  rw [Token.scan_stops hstops] at hscan
  exact (congrArg Token.spaced (List.cons.inj hscan).1).symm

theorem Even.join_eq {pos : Position} {b : Bool} (h : s.Even ts cs) (hscan : Token.scan pos b cs = ts) :
    (s.join ts).toList = cs := by
  induction h generalizing pos b with
  | nil => rfl
  | last t => rfl
  | @cons t u ts gap cs hgap heven ih =>
      obtain ⟨_, pos', hrest⟩ := Token.scan_eq_cons_of_text hscan
      have hgapped : (s.gap t u).toList = gap ∧ (s.join (u :: ts)).toList = cs := by
        rcases hgap with rfl | ⟨rfl, htight⟩
        · have hspaced := spaced_of_scan heven hrest.symm
          exact ⟨by simp [Spacing.gap, hspaced], ih hrest.symm⟩
        · rw [List.singleton_append, Token.scan_blank (by decide)] at hrest
          have hspaced := spaced_of_scan heven hrest.symm
          exact ⟨by simp [Spacing.gap, hspaced, htight], ih hrest.symm⟩
      rw [join, String.toList_append, String.toList_append, hgapped.1, hgapped.2, List.append_assoc]

theorem Even.uncommented {y : String} (h : s.Even (Token.ofText y) y.toList) : Uncommented y.toList := by
  apply uncommented_of_ink
  rw [h.ink, Token.ofText, Token.inks_scan]

/-- The tokens of a text join to it exactly if it is evenly spaced. -/
theorem join_ofText_eq_iff {y : String} : s.join (Token.ofText y) = y ↔ s.Even (Token.ofText y) y.toList := by
  constructor
  · intro h
    have heven := s.even_join (Token.ofText y)
    rwa [h] at heven
  · intro h
    have hscan : Token.scan {} false y.toList = Token.ofText y := by
      rw [Token.ofText, blankComments_of_uncommented h.uncommented]
    exact String.toList_inj.1 (h.join_eq hscan)

end Spacing
end TieredStyle.Css
