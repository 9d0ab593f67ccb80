import Mathlib.Algebra.GroupWithZero.Nat
import Mathlib.Data.List.Chain
import TieredStyle.Proofs.Lexing.Respacing

/-!
# The ink of a text

Ink is what blanks and semicolons do not leave: reading a stylesheet drops blanks and semicolons only,
so the ink that it reads is the ink that it keeps. A comment is ink that is lost, hence a text whose
ink is all kept has no comment in it.
-/
namespace TieredStyle.Css
open TieredStyle.Text

/-- The number of characters that are neither blank nor semicolons. -/
def ink (cs : List Char) : Nat := cs.countP fun c => !isBlank c && c != ';'

@[simp] theorem ink_nil : ink [] = 0 := rfl

theorem ink_cons (c : Char) (cs : List Char) :
    ink (c :: cs) = ink cs + if isBlank c || c == ';' then 0 else 1 := by
  rw [ink, List.countP_cons, ink]
  cases hb : isBlank c <;> cases hs : c == ';' <;> simp_all

@[simp] theorem ink_append (cs ds : List Char) : ink (cs ++ ds) = ink cs + ink ds :=
  List.countP_append

theorem ink_cons_blank {c : Char} (h : isBlank c = true) (cs : List Char) : ink (c :: cs) = ink cs := by
  rw [ink_cons, h]
  rfl

theorem ink_cons_le (c : Char) (cs : List Char) : ink cs ≤ ink (c :: cs) := by
  rw [ink_cons]
  exact Nat.le_add_right _ _

theorem ink_eq_zero_of_blank {cs : List Char} (h : ∀ c ∈ cs, isBlank c = true) : ink cs = 0 := by
  rw [ink, List.countP_eq_zero]
  intro c hc
  simp [h c hc]

/-! ## Comments -/

/-- No comment starts in the text. -/
def Uncommented (cs : List Char) : Prop := cs.IsChain fun a b => ¬(a = '/' ∧ b = '*')

theorem blankComments_of_uncommented {cs : List Char} (h : Uncommented cs) :
    blankComments cs = cs := by
  unfold blankComments
  induction cs with
  | nil => rfl
  | cons c cs ih =>
      have ih := ih h.tail
      rw [blankFrom.eq_def]
      split
      next heq =>
        obtain ⟨rfl, rfl⟩ := List.cons.inj heq
        exact absurd ⟨rfl, rfl⟩ (List.isChain_cons_cons.1 h).1
      all_goals simp_all

theorem head?_blankFrom_false {cs : List Char} (h : (blankFrom false cs).head? = some '*') :
    cs.head? = some '*' := by
  rw [blankFrom.eq_def] at h
  split at h <;> simp_all

theorem uncommented_cons {c : Char} {cs : List Char} :
    Uncommented (c :: cs) ↔ (c = '/' → cs.head? ≠ some '*') ∧ Uncommented cs := by
  rw [Uncommented, List.isChain_cons]
  constructor
  · rintro ⟨h, hcs⟩
    exact ⟨fun hc hs => h '*' hs ⟨hc, rfl⟩, hcs⟩
  · rintro ⟨h, hcs⟩
    refine ⟨fun d hd hcd => h hcd.1 ?_, hcs⟩
    rw [← hcd.2]
    exact hd

theorem Uncommented.append {cs ds : List Char} (h : Uncommented cs) (h' : Uncommented ds)
    (hb : cs.getLast? = some '/' → ds.head? ≠ some '*') : Uncommented (cs ++ ds) := by
  rw [Uncommented, List.isChain_append]
  refine ⟨h, h', fun a ha b hd hab => hb ?_ ?_⟩
  · rw [← hab.1]
    exact ha
  · rw [← hab.2]
    exact hd

theorem uncommented_append_blank {n : Nat} {cs : List Char} (h : Uncommented cs) :
    Uncommented (List.replicate n ' ' ++ cs) := by
  induction n with
  | zero => exact h
  | succ n ih =>
      rw [List.replicate_succ, List.cons_append]
      exact uncommented_cons.2 ⟨fun h => by simp at h, ih⟩

theorem Uncommented.spaced {cs : List Char} (h : Uncommented cs) {b : Bool} :
    Uncommented ((if b then [' '] else []) ++ cs) := by
  split
  · exact uncommented_append_blank (n := 1) h
  · exact h

theorem uncommented_blankFrom (b : Bool) (cs : List Char) : Uncommented (blankFrom b cs) := by
  fun_induction blankFrom b cs with
  | case1 cs ih =>
      exact uncommented_append_blank (n := 2) ih
  | case2 cs ih => exact uncommented_append_blank (n := 2) ih
  | case3 cs ih => exact uncommented_cons.2 ⟨fun h => by simp at h, ih⟩
  | case4 c cs _ _ ih => exact uncommented_append_blank ih
  | case5 c cs hne ih =>
      refine uncommented_cons.2 ⟨fun hc hs => ?_, ih⟩
      have hs' := head?_blankFrom_false hs
      cases cs with
      | nil => cases hs'
      | cons d ds =>
          cases hs'
          exact hne ds hc rfl
  | case6 => exact .nil

theorem uncommented_blankComments (cs : List Char) : Uncommented (blankComments cs) :=
  uncommented_blankFrom false cs

theorem ink_blankFrom_le (b : Bool) (cs : List Char) : ink (blankFrom b cs) ≤ ink cs := by
  have hblanks : ∀ n, ink (List.replicate n ' ') = 0 := fun n => ink_eq_zero_of_blank fun c hc => by
    rw [List.eq_of_mem_replicate hc]
    decide
  have hspaces : ∀ cs, ink (' ' :: ' ' :: cs) = ink cs := fun cs => by
    rw [ink_cons_blank (by decide), ink_cons_blank (by decide)]
  fun_induction blankFrom b cs with
  | case1 cs ih =>
      rw [hspaces]
      exact Nat.le_trans ih (Nat.le_trans (ink_cons_le _ _) (ink_cons_le _ _))
  | case2 cs ih =>
      rw [hspaces]
      exact Nat.le_trans ih (Nat.le_trans (ink_cons_le _ _) (ink_cons_le _ _))
  | case3 cs ih =>
      rw [ink_cons_blank (by decide)]
      exact Nat.le_trans ih (ink_cons_le _ _)
  | case4 c cs _ _ ih =>
      rw [ink_append, hblanks, Nat.zero_add]
      exact Nat.le_trans ih (ink_cons_le _ _)
  | case5 c cs _ ih =>
      rw [ink_cons, ink_cons]
      exact Nat.add_le_add_right ih _
  | case6 => exact Nat.le_refl _

/-- A text that keeps its ink when its comments are blanked has none. -/
theorem uncommented_of_ink {cs : List Char} (h : ink cs ≤ ink (blankComments cs)) :
    Uncommented cs := by
  have heq : blankFrom false cs = cs := by
    unfold blankComments at h
    induction cs with
    | nil => rfl
    | cons c cs ih =>
        rw [blankFrom.eq_def] at h ⊢
        split at h
        next ds _ heq =>
          obtain ⟨rfl, rfl⟩ := List.cons.inj heq
          have hle := ink_blankFrom_le true ds
          have hstart : ink ('/' :: '*' :: ds) = ink ds + 2 := by
            rw [ink_cons, ink_cons]
            rfl
          rw [hstart, ink_cons_blank (by decide), ink_cons_blank (by decide)] at h
          omega
        all_goals simp_all [ink_cons]
  rw [← heq]
  exact uncommented_blankFrom false cs

/-! ## Tokens -/

namespace Token

/-- The ink of the texts of tokens. -/
def inks (ts : List Token) : Nat := (ts.map fun t => ink t.text.toList).sum

@[simp] theorem inks_nil : inks [] = 0 := rfl

@[simp] theorem inks_cons (t : Token) (ts : List Token) :
    inks (t :: ts) = ink t.text.toList + inks ts := by simp [inks]

@[simp] theorem inks_append (ts us : List Token) : inks (ts ++ us) = inks ts + inks us := by
  simp [inks]

theorem inks_scan (pos : Position) (b : Bool) (cs : List Char) :
    inks (scan pos b cs) = ink cs := by
  induction cs using scan_induction generalizing pos b with
  | nil => rw [scan_nil]; rfl
  | blank c cs hc ih => rw [scan_blank hc, ih, ink_cons_blank hc]
  | lexeme l r hl ih => rw [scan_stops hl, inks_cons, ih, ink_append]

end Token

theorem Spacing.ink_join (s : Spacing) (ts : List Token) :
    ink (s.join ts).toList = Token.inks ts := by
  match ts with
  | [] => rfl
  | [t] => simp [join]
  | t :: u :: us =>
      have ih := s.ink_join (u :: us)
      have hgap : ink (s.gap t u).toList = 0 := by
        unfold gap
        split <;> rfl
      rw [join, String.toList_append, String.toList_append, ink_append, ink_append, hgap, ih,
        Token.inks_cons t]
      rfl

/-- A text that its tokens join to has no comment. -/
theorem Spacing.uncommented_of_join_eq {s : Spacing} {x : String} (h : s.join (Token.ofText x) = x) :
    Uncommented x.toList := by
  have hink := s.ink_join (Token.ofText x)
  rw [h, Token.ofText, Token.inks_scan] at hink
  exact uncommented_of_ink (Nat.le_of_eq hink)

end TieredStyle.Css
