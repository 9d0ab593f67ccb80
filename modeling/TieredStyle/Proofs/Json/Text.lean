import Mathlib.Data.Nat.Basic
import TieredStyle.Json.Literal
import TieredStyle.Json.Write

/-!
# Reading back a string

A quote, a backslash and each character below the space is written as an escape, and no other character is.
The escape is read as the character that it was written for, whatever comes behind it. So a string is read
up to the quote that closes it.
-/
namespace TieredStyle.Json

/-! ## Marks -/

theorem skipBlanks_cons {c : Char} (h : isBlank c = false) (cs : List Char) :
    skipBlanks (c :: cs) = c :: cs :=
  List.dropWhile_cons_of_neg (by simp [h])

theorem takeMark_cons {c : Char} (h : isBlank c = false) (cs : List Char) :
    takeMark c (c :: cs) = some ⟨cs, Nat.lt_succ_self _⟩ := by
  unfold takeMark
  split
  next heq =>
    rw [skipBlanks_cons h] at heq
    cases heq
  next d rest heq =>
    rw [skipBlanks_cons h] at heq
    cases heq
    simp

theorem takeMark_cons_of_ne {c d : Char} (hd : isBlank d = false) (hne : d ≠ c) (cs : List Char) :
    takeMark c (d :: cs) = none := by
  unfold takeMark
  split
  next => rfl
  next e rest heq =>
    rw [skipBlanks_cons hd] at heq
    cases heq
    rw [if_neg hne]

/-! ## Escapes -/

theorem hexDigit?_hexDigit : ∀ n < 16, hexDigit? (hexDigit n) = some n := by decide

/-- The four digits for a control character give its code. -/
theorem unit?_control {n : Nat} (h : n < 0x20) :
    unit? '0' '0' (hexDigit (n / 16)) (hexDigit (n % 16)) = some n := by
  have hzero : hexDigit? '0' = some 0 := by decide
  have hhigh := hexDigit?_hexDigit (n / 16) (by omega)
  have hlow := hexDigit?_hexDigit (n % 16) (by omega)
  simp only [unit?, hzero, hhigh, hlow, Option.bind_eq_bind, Option.bind_some, Option.pure_def]
  congr 1
  omega

theorem takeUnicode_control {c : Char} (h : c.toNat < 0x20) (rest : List Char) :
    takeUnicode ('0' :: '0' :: hexDigit (c.toNat / 16) :: hexDigit (c.toNat % 16) :: rest) =
      some ⟨c, rest, by simp only [List.length_cons]; omega⟩ := by
  have hlow : ¬(0xDC00 ≤ c.toNat ∧ c.toNat ≤ 0xDFFF) := by omega
  have hhigh : ¬(0xD800 ≤ c.toNat ∧ c.toNat ≤ 0xDBFF) := by omega
  simp [takeUnicode, unit?_control h, hlow, hhigh]

/-- How a character is written. -/
inductive Escapes (c : Char) : List Char → Prop
  | short (e : Char) : e ≠ 'u' → shortEscape? e = some c → Escapes c ['\\', e]
  | control : c.toNat < 0x20 →
      Escapes c ['\\', 'u', '0', '0', hexDigit (c.toNat / 16), hexDigit (c.toNat % 16)]
  | itself : c ≠ '"' → c ≠ '\\' → ¬ c.toNat < 0x20 → Escapes c [c]

theorem escapes_escapeChar (c : Char) : Escapes c (escapeChar c) := by
  unfold escapeChar
  split_ifs with hquote hslash hback hfeed hline hreturn htab hcontrol
  rotate_left 7
  · exact .control hcontrol
  · exact .itself hquote hslash hcontrol
  all_goals
    subst c
    exact .short _ (by decide) rfl

/-! ## Strings -/

/-- What is written for a character is read as that character. -/
theorem takeChars_escapes {c : Char} {written cs rest rest' : List Char} {hle : rest'.length ≤ rest.length}
    (hc : Escapes c written) (h : takeChars rest = some ⟨cs, rest', hle⟩) :
    ∃ hle', takeChars (written ++ rest) = some ⟨c :: cs, rest', hle'⟩ := by
  cases hc with
  | short e he hshort =>
      refine ⟨by simp; omega, ?_⟩
      simp only [List.cons_append, List.nil_append]
      rw [takeChars]
      simp [takeEscape, he, hshort, h]
  | control hlt =>
      refine ⟨by simp; omega, ?_⟩
      simp only [List.cons_append, List.nil_append]
      rw [takeChars]
      simp [takeEscape, takeUnicode_control hlt, Parsed.widen, h]
  | itself hquote hslash hcontrol =>
      refine ⟨by simp; omega, ?_⟩
      simp only [List.cons_append, List.nil_append]
      rw [takeChars]
      simp [hquote, hslash, hcontrol, h]

theorem takeChars_flatMap (cs rest : List Char) :
    ∃ hle, takeChars (cs.flatMap escapeChar ++ '"' :: rest) = some ⟨cs, rest, hle⟩ := by
  induction cs with
  | nil =>
      rw [List.flatMap_nil, List.nil_append, takeChars]
      exact ⟨_, rfl⟩
  | cons c cs ih =>
      obtain ⟨_, ih⟩ := ih
      rw [List.flatMap_cons, List.append_assoc]
      exact takeChars_escapes (escapes_escapeChar c) ih

theorem toList_text (s : String) : (text s).toList = '"' :: (s.toList.flatMap escapeChar ++ ['"']) := by
  simp [text]

/-- What follows the opening quote of a string is read as the string. -/
theorem takeText_flatMap (s : String) (rest : List Char) :
    ∃ hle, takeText (s.toList.flatMap escapeChar ++ '"' :: rest) = some ⟨s, rest, hle⟩ := by
  obtain ⟨hle, h⟩ := takeChars_flatMap s.toList rest
  exact ⟨hle, by simp [takeText, h, Parsed.map]⟩

end TieredStyle.Json
