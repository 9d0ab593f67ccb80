import Mathlib.Data.List.Basic
import Mathlib.Data.Nat.Digits.Defs
import TieredStyle.Json.Numeral

/-!
# Reading back a number

The decimal digits of a number are read as that number in front of anything that does not go on with it, if
the number has room in 64 bits.
-/
namespace TieredStyle.Json

/-! ## Digits -/

theorem head?_toDigits_ne {n : Nat} (h : 0 < n) : (Nat.toDigits 10 n).head? ≠ some '0' := by
  induction n using Nat.strong_induction_on with
  | _ n ih =>
    rw [Nat.toDigits_eq_if (by decide)]
    split
    next hlt =>
      have hne : Nat.digitChar n ≠ '0' := by
        intro heq
        have hzero : n = 0 := by simpa using heq
        omega
      simpa using hne
    next hge =>
      rw [List.head?_append_of_ne_nil _ Nat.toDigits_ne_nil]
      exact ih (n / 10) (by omega) (by omega)

/-- No zero stands in front of other digits. -/
theorem length_toDigits_of_head? {n : Nat} (h : (Nat.toDigits 10 n).head? = some '0') :
    (Nat.toDigits 10 n).length = 1 := by
  cases n with
  | zero => rfl
  | succ n => exact absurd h (head?_toDigits_ne (Nat.succ_pos n))

theorem le_ofDigitChars (n : Nat) (ds : List Char) : n ≤ Nat.ofDigitChars 10 ds n := by
  induction ds generalizing n with
  | nil => exact Nat.le_refl n
  | cons d ds ih =>
      rw [Nat.ofDigitChars_cons]
      have := ih (10 * n + (d.toNat - '0'.toNat))
      omega

/-- All digits are taken in if the number that they come to has room. -/
theorem absorb_eq {n : Nat} {ds : List Char} (h : Nat.ofDigitChars 10 ds n < Nat.pow 2 64) :
    absorb n ds = (Nat.ofDigitChars 10 ds n, ds.length) := by
  induction ds generalizing n with
  | nil => rfl
  | cons d ds ih =>
      rw [Nat.ofDigitChars_cons] at h ⊢
      rw [absorb, digitValue, if_pos (Nat.lt_of_le_of_lt (le_ofDigitChars _ ds) h), ih h,
        List.length_cons]

/-! ## Numerals -/

/-- Whether a character ends a number. -/
structure EndsNumeral (c : Char) : Prop where
  not_digit : c.isDigit = false
  ne_point : c ≠ '.'
  not_exponent : ¬(c = 'e' ∨ c = 'E')

theorem takeDigits_append {ds rest : List Char} (hds : ∀ d ∈ ds, d.isDigit = true)
    (h : ∀ c ∈ rest.head?, c.isDigit = false) : takeDigits (ds ++ rest) = ⟨ds, rest, by simp⟩ := by
  have hrest : rest.takeWhile Char.isDigit = [] ∧ rest.dropWhile Char.isDigit = rest := by
    cases rest with
    | nil => exact ⟨rfl, rfl⟩
    | cons c rest => simp [h c rfl]
  simp [takeDigits, List.takeWhile_append_of_pos hds, List.dropWhile_append_of_pos hds, hrest]

theorem takeMinus_append {ds : List Char} (hne : ds ≠ []) (hds : ∀ d ∈ ds, d.isDigit = true)
    (rest : List Char) : takeMinus (ds ++ rest) = ⟨false, ds ++ rest, Nat.le_refl _⟩ := by
  cases ds with
  | nil => exact absurd rfl hne
  | cons d ds =>
      apply takeMinus.eq_2
      rintro more ⟨⟩
      exact absurd (hds '-' List.mem_cons_self) (by decide)

theorem takeNumeral_toDigits {c : Char} (h : EndsNumeral c) (n : Nat) (rest : List Char) :
    ∃ hle, takeNumeral (Nat.toDigits 10 n ++ c :: rest) =
      some ⟨⟨false, Nat.toDigits 10 n, [], none⟩, c :: rest, hle⟩ := by
  have hne : Nat.toDigits 10 n ≠ [] := Nat.toDigits_ne_nil
  have hds : ∀ d ∈ Nat.toDigits 10 n, d.isDigit = true := fun d hd =>
    Nat.isDigit_of_mem_toDigits (by decide) (by decide) hd
  have hlead : ((Nat.toDigits 10 n).isEmpty ||
      ((Nat.toDigits 10 n).head? = some '0' && (Nat.toDigits 10 n).length ≠ 1)) = false := by
    simpa [hne] using length_toDigits_of_head?
  have hfraction : takeFraction (c :: rest) = some ⟨[], c :: rest, Nat.le_refl _⟩ := by
    apply takeFraction.eq_2
    rintro more ⟨⟩
    exact h.ne_point rfl
  refine ⟨by simp, ?_⟩
  rw [takeNumeral, takeMinus_append hne hds]
  dsimp only
  rw [takeDigits_append hds (by simpa using h.not_digit)]
  dsimp only
  rw [hlead, if_neg Bool.false_ne_true, hfraction]
  simp [takeExponent, h.not_exponent]

theorem value?_toDigits {n : Nat} (h : n < Nat.pow 2 64) :
    Numeral.value? ⟨false, Nat.toDigits 10 n, [], none⟩ = some (.natural n) := by
  have habsorb : absorb 0 (Nat.toDigits 10 n) = (n, (Nat.toDigits 10 n).length) := by
    rw [absorb_eq (by simpa using h), Nat.ofDigitChars_ten_toDigits]
  simp [Numeral.value?, habsorb]

end TieredStyle.Json
