/-! Places in a text, counted in lines and characters. -/
namespace TieredStyle.Text

/-- Line and column, both from 1. -/
structure Position where
  line : Nat := 1
  column : Nat := 1
deriving DecidableEq, Inhabited

namespace Position

/-- The place after one more character: a line feed opens the next line. -/
def advance (p : Position) (c : Char) : Position :=
  if c = '\n' then ⟨p.line + 1, 1⟩ else ⟨p.line, p.column + 1⟩

/-- The place after a run of characters. -/
def skip (p : Position) (cs : List Char) : Position := cs.foldl advance p

@[simp] theorem skip_nil (p : Position) : p.skip [] = p := rfl

@[simp] theorem skip_cons (p : Position) (c : Char) (cs : List Char) :
    p.skip (c :: cs) = (p.advance c).skip cs := rfl

theorem skip_append (p : Position) (cs ds : List Char) : p.skip (cs ++ ds) = (p.skip cs).skip ds :=
  List.foldl_append

theorem line_skip (p : Position) (cs : List Char) : (p.skip cs).line = p.line + cs.count '\n' := by
  induction cs generalizing p with
  | nil => rfl
  | cons c cs ih =>
    by_cases h : c = '\n'
    · simp [ih, advance, h]
      omega
    · simp [ih, advance, h]

theorem column_skip {cs : List Char} (h : '\n' ∉ cs) (p : Position) :
    (p.skip cs).column = p.column + cs.length := by
  induction cs generalizing p with
  | nil => rfl
  | cons c cs ih =>
    have hc : c ≠ '\n' := fun he => h (he ▸ List.mem_cons_self)
    rw [skip_cons, ih fun hm => h (List.mem_cons_of_mem _ hm)]
    simp [advance, hc]
    omega

/-- Every character leads to another place. -/
theorem skip_ne {cs : List Char} (h : cs ≠ []) (p : Position) : p.skip cs ≠ p := by
  intro he
  have hline := line_skip p cs
  rw [he] at hline
  have hnone : '\n' ∉ cs := List.count_eq_zero.1 (by omega)
  have hcolumn := column_skip hnone p
  rw [he] at hcolumn
  exact h (List.length_eq_zero_iff.1 (by omega))

end Position
end TieredStyle.Text
