import Mathlib.Data.List.Nodup

/-!
# Lists without their repetitions

`List.eraseDups` keeps the first of each element. What it makes of a list in parts depends only on what it
makes of the parts.
-/
namespace TieredStyle

variable {α : Type} [BEq α] [LawfulBEq α]

theorem eraseDups_filter (p : α → Bool) (l : List α) :
    (l.filter p).eraseDups = l.eraseDups.filter p := by
  match l with
  | [] => rfl
  | a :: l =>
      have hrest := eraseDups_filter p (l.filter fun b => !b == a)
      rw [List.filter_filter] at hrest
      rw [List.eraseDups_cons, List.filter_cons, List.filter_cons]
      split
      next ha =>
        rw [List.eraseDups_cons, List.filter_filter, ← hrest]
        simp only [Bool.and_comm]
      next ha =>
        rw [← hrest]
        congr 1
        refine List.filter_congr fun b _ => ?_
        cases hb : p b with
        | false => rfl
        | true =>
            have hne : (b == a) = false := by
              rw [beq_eq_false_iff_ne]
              rintro rfl
              exact ha hb
            rw [hne]
            rfl
termination_by l.length
decreasing_by exact Nat.lt_succ_of_le (List.length_filter_le _ _)

theorem eraseDups_eraseDups (l : List α) : l.eraseDups.eraseDups = l.eraseDups := by
  match l with
  | [] => rfl
  | a :: l =>
      have hrest := eraseDups_eraseDups (l.filter fun b => !b == a)
      rw [List.eraseDups_cons, List.eraseDups_cons, ← eraseDups_filter, List.filter_filter]
      simp only [Bool.and_self]
      rw [hrest]
termination_by l.length
decreasing_by exact Nat.lt_succ_of_le (List.length_filter_le _ _)

theorem eraseDups_of_nodup {l : List α} (h : l.Nodup) : l.eraseDups = l := by
  induction l with
  | nil => rfl
  | cons a l ih =>
      rw [List.nodup_cons] at h
      have hne : (l.filter fun b => !b == a) = l := by
        refine List.filter_eq_self.2 fun b hb => ?_
        rw [Bool.not_eq_true', beq_eq_false_iff_ne]
        rintro rfl
        exact h.1 hb
      rw [List.eraseDups_cons, hne, ih h.2]

theorem eraseDups_append_congr {as as' bs bs' : List α} (ha : as.eraseDups = as'.eraseDups)
    (hb : bs.eraseDups = bs'.eraseDups) : (as ++ bs).eraseDups = (as' ++ bs').eraseDups := by
  have hmem : ∀ b, as.elem b = as'.elem b := by
    intro b
    rw [Bool.eq_iff_iff, List.elem_iff, List.elem_iff, ← List.mem_eraseDups, ha, List.mem_eraseDups]
  rw [List.eraseDups_append, List.eraseDups_append, List.removeAll, List.removeAll,
    eraseDups_filter, eraseDups_filter, ha, hb]
  simp only [hmem]

/-- The parts may come without their repetitions. -/
theorem eraseDups_append_eraseDups (as bs : List α) :
    (as.eraseDups ++ bs.eraseDups).eraseDups = (as ++ bs).eraseDups :=
  eraseDups_append_congr (eraseDups_eraseDups as) (eraseDups_eraseDups bs)

/-- Elements that are there already add nothing. -/
theorem eraseDups_append_of_subset {as bs : List α} (h : bs ⊆ as) :
    (as ++ bs).eraseDups = as.eraseDups := by
  have hnil : bs.removeAll as = [] := by
    rw [List.removeAll, List.filter_eq_nil_iff]
    intro b hb
    simpa using h hb
  rw [List.eraseDups_append, hnil]
  exact List.append_nil _

end TieredStyle
