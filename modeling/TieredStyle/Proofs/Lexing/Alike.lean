import TieredStyle.Css.Lexeme

/-!
# Texts that are alike to the lexer

How far a lexeme reaches depends on what follows it, but only up to the first character that no name,
no number and no unit takes in. Texts that agree so far are alike, and a lexeme that starts before
them is the same before either. String literals and exclamation marks look further and stay apart.
-/
namespace TieredStyle.Css

/-- Names, numbers and units end before a barrier. -/
def isBarrier (c : Char) : Bool := !isNameChar c && c != '.'

/-- A barrier that a lexeme before it never takes in, as a name takes in a parenthesis and a number a
percent sign. -/
def isBreak (c : Char) : Bool := isBarrier c && c != '(' && c != '%'

/-- There is nothing more, or a break. -/
def Ends (cs : List Char) : Prop := ∀ c ∈ cs.head?, isBreak c = true

/-- Two texts that agree up to where no name, number or unit goes on. -/
inductive Alike : List Char → List Char → Prop
  | ends {r r' : List Char} : Ends r → Ends r' → Alike r r'
  | barrier {c : Char} {r r' : List Char} : isBarrier c = true → Alike (c :: r) (c :: r')
  | cons (c : Char) {r r' : List Char} : Alike r r' → Alike (c :: r) (c :: r')

theorem ends_nil : Ends [] := fun _ h => by cases h

theorem ends_cons {c : Char} {cs : List Char} : Ends (c :: cs) ↔ isBreak c = true := by
  simp [Ends]

/-! ## Barriers lie outside the character classes -/

theorem isBarrier_of_isBreak {c : Char} (h : isBreak c = true) : isBarrier c = true := by
  simp only [isBreak, Bool.and_eq_true] at h
  exact h.1.1

theorem isNameChar_of_isBarrier {c : Char} (h : isBarrier c = true) : isNameChar c = false := by
  simp only [isBarrier, Bool.and_eq_true, Bool.not_eq_true'] at h
  exact h.1

theorem isAlphanum_of_isBarrier {c : Char} (h : isBarrier c = true) : c.isAlphanum = false := by
  have hn := isNameChar_of_isBarrier h
  simp only [isNameChar, Bool.or_eq_false_iff] at hn
  exact hn.1.1

theorem isAlpha_of_isBarrier {c : Char} (h : isBarrier c = true) : c.isAlpha = false := by
  have ha := isAlphanum_of_isBarrier h
  simp only [Char.isAlphanum, Bool.or_eq_false_iff] at ha
  exact ha.1

theorem isDigit_of_isBarrier {c : Char} (h : isBarrier c = true) : c.isDigit = false := by
  have ha := isAlphanum_of_isBarrier h
  simp only [Char.isAlphanum, Bool.or_eq_false_iff] at ha
  exact ha.2

theorem isNameStart_of_isBarrier {c : Char} (h : isBarrier c = true) : isNameStart c = false := by
  have hn := isNameChar_of_isBarrier h
  simp only [isNameChar, Bool.or_eq_false_iff] at hn
  simp only [isNameStart, Bool.or_eq_false_iff]
  exact ⟨isAlpha_of_isBarrier h, hn.1.2⟩

theorem isNameChar_of_isNameStart {c : Char} (h : isNameStart c = true) : isNameChar c = true := by
  simp only [isNameStart, Bool.or_eq_true] at h
  simp only [isNameChar, Char.isAlphanum, Bool.or_eq_true]
  rcases h with h | h
  · exact .inl (.inl (.inl h))
  · exact .inl (.inr h)

/-! ## Runs -/

theorem runLength_cons (p : Char → Bool) (c : Char) (cs : List Char) :
    runLength p (c :: cs) = if p c then runLength p cs + 1 else 0 := by
  unfold runLength
  rw [List.takeWhile_cons]
  split <;> rfl

theorem runLength_of_ends {p : Char → Bool} (hp : ∀ c, isBarrier c = true → p c = false)
    {cs : List Char} (h : Ends cs) : runLength p cs = 0 := by
  cases cs with
  | nil => rfl
  | cons c cs =>
      have hc := hp c (isBarrier_of_isBreak (ends_cons.1 h))
      rw [runLength_cons, hc]
      rfl

namespace Alike

variable {z z' : List Char}

theorem refl (z : List Char) : Alike z z := by
  induction z with
  | nil => exact .ends ends_nil ends_nil
  | cons c z ih => exact .cons c ih

theorem append_left (cs : List Char) (h : Alike z z') : Alike (cs ++ z) (cs ++ z') := by
  induction cs with
  | nil => exact h
  | cons c cs ih => exact .cons c ih

/-- A character that is no break stands in front of both or of neither. -/
theorem head?_iff (h : Alike z z') {c : Char} (hc : isBreak c = false) :
    z.head? = some c ↔ z'.head? = some c := by
  have not_of_ends : ∀ {r : List Char}, Ends r → r.head? ≠ some c := by
    intro r hr he
    have := hr c he
    rw [hc] at this
    cases this
  cases h with
  | ends h h' => exact ⟨fun he => absurd he (not_of_ends h), fun he => absurd he (not_of_ends h')⟩
  | barrier _ => exact Iff.rfl
  | cons _ _ => exact Iff.rfl

/-- After a character that is no barrier the texts are still alike. -/
theorem tail (h : Alike z z') {c : Char} (hc : isBarrier c = false) (hz : z.head? = some c) :
    Alike (z.drop 1) (z'.drop 1) := by
  cases h with
  | ends h _ =>
      have := isBarrier_of_isBreak (h c hz)
      rw [hc] at this
      cases this
  | barrier hb =>
      cases hz
      rw [hc] at hb
      cases hb
  | cons _ h => exact h

theorem runLength {p : Char → Bool} (hp : ∀ c, isBarrier c = true → p c = false)
    (h : Alike z z') : runLength p z = runLength p z' := by
  induction h with
  | ends h h' => rw [runLength_of_ends hp h, runLength_of_ends hp h']
  | barrier hb => rw [runLength_cons, runLength_cons, hp _ hb]; rfl
  | cons c _ ih => rw [runLength_cons, runLength_cons, ih]

theorem drop_runLength {p : Char → Bool} (hp : ∀ c, isBarrier c = true → p c = false)
    (h : Alike z z') : Alike (z.drop (Css.runLength p z)) (z'.drop (Css.runLength p z)) := by
  induction h with
  | ends h h' => rw [runLength_of_ends hp h]; exact .ends h h'
  | barrier hb => rw [runLength_cons, hp _ hb]; exact .barrier hb
  | cons c h ih =>
      rw [runLength_cons]
      split
      · exact ih
      · exact .cons c h

/-! ## Names and numbers -/

theorem nameLength (h : Alike z z') : nameLength z = nameLength z' := by
  cases h with
  | ends h h' =>
      have zero : ∀ {r : List Char}, Ends r → Css.nameLength r = 0 := by
        intro r hr
        cases r with
        | nil => rfl
        | cons c r =>
            have hc := isNameStart_of_isBarrier (isBarrier_of_isBreak (ends_cons.1 hr))
            simp [Css.nameLength, hc]
      rw [zero h, zero h']
  | barrier hb => simp [Css.nameLength, isNameStart_of_isBarrier hb]
  | cons c h =>
      simp only [Css.nameLength]
      rw [h.runLength fun _ => isNameChar_of_isBarrier]

theorem drop_nameLength (h : Alike z z') :
    Alike (z.drop (Css.nameLength z)) (z'.drop (Css.nameLength z)) := by
  cases z with
  | nil => exact h
  | cons c z =>
      simp only [Css.nameLength]
      split
      next hc =>
        have hn := isNameChar_of_isNameStart hc
        have hrun : Css.runLength isNameChar (c :: z) = Css.runLength isNameChar z + 1 := by
          rw [runLength_cons, hn]
          rfl
        have hd := h.drop_runLength (p := isNameChar) fun _ => isNameChar_of_isBarrier
        rwa [hrun] at hd
      next => exact h

theorem hyphenNameLength_eq (z : List Char) :
    hyphenNameLength z =
      if z.head? = some '-' then
        if Css.nameLength (z.drop 1) = 0 then 0 else Css.nameLength (z.drop 1) + 1
      else Css.nameLength z := by
  unfold Css.hyphenNameLength
  split
  next => simp
  next h =>
    rw [if_neg]
    intro he
    cases z with
    | nil => cases he
    | cons c z => cases he; exact h z rfl

theorem hyphenNameLength (h : Alike z z') : hyphenNameLength z = hyphenNameLength z' := by
  rw [hyphenNameLength_eq, hyphenNameLength_eq]
  by_cases hz : z.head? = some '-'
  · have ht := (h.tail (by decide) hz).nameLength
    rw [if_pos hz, if_pos ((h.head?_iff (by decide)).1 hz), ht]
  · rw [if_neg hz, if_neg (mt (h.head?_iff (by decide)).2 hz), h.nameLength]

theorem drop_hyphenNameLength (h : Alike z z') :
    Alike (z.drop (Css.hyphenNameLength z)) (z'.drop (Css.hyphenNameLength z)) := by
  rw [hyphenNameLength_eq]
  split
  next hz =>
    split
    next => exact h
    next =>
      have ht := (h.tail (by decide) hz).drop_nameLength
      rwa [List.drop_drop, List.drop_drop, Nat.add_comm] at ht
  next => exact h.drop_nameLength

theorem numeralLength_eq (z : List Char) :
    numeralLength z =
      let n := Css.runLength Char.isDigit z
      let m := Css.runLength Char.isDigit ((z.drop n).drop 1)
      if (z.drop n).head? = some '.' ∧ m ≠ 0 then n + 1 + m else n := by
  simp only [Css.numeralLength]
  split
  next ds hd =>
    rw [hd]
    by_cases hm : Css.runLength Char.isDigit ds = 0 <;> simp [hm]
  next hd =>
    rw [if_neg]
    intro he
    cases hz : z.drop (Css.runLength Char.isDigit z) with
    | nil => rw [hz] at he; cases he.1
    | cons c ds => rw [hz] at he; cases he.1; exact hd ds hz

theorem numeralLength (h : Alike z z') : numeralLength z = numeralLength z' := by
  have hd := h.drop_runLength (p := Char.isDigit) fun _ => isDigit_of_isBarrier
  rw [numeralLength_eq, numeralLength_eq, ← h.runLength fun _ => isDigit_of_isBarrier]
  by_cases hz : (z.drop (Css.runLength Char.isDigit z)).head? = some '.'
  · have ht := (hd.tail (by decide) hz).runLength (p := Char.isDigit) fun _ => isDigit_of_isBarrier
    have hz' := (hd.head?_iff (by decide)).1 hz
    simp only [hz, hz', ht]
  · have hz' := mt (hd.head?_iff (by decide)).2 hz
    simp only [hz, hz', false_and, ↓reduceIte]

theorem drop_numeralLength (h : Alike z z') :
    Alike (z.drop (Css.numeralLength z)) (z'.drop (Css.numeralLength z)) := by
  have hd := h.drop_runLength (p := Char.isDigit) fun _ => isDigit_of_isBarrier
  rw [numeralLength_eq]
  simp only
  split
  next hz =>
    have ht := (hd.tail (by decide) hz.1).drop_runLength (p := Char.isDigit)
      fun _ => isDigit_of_isBarrier
    simpa only [List.drop_drop, Nat.add_assoc] using ht
  next => exact hd

/-! ## The longest match -/

theorem measured {n : Nat} (h : Alike (z.drop n) (z'.drop n)) : measured n z = measured n z' := by
  simp only [Css.measured, h.runLength fun _ => isAlpha_of_isBarrier,
    h.head?_iff (c := '%') (by decide)]

theorem named {n : Nat} (h : Alike (z.drop n) (z'.drop n)) : named n z = named n z' := by
  simp only [Css.named, h.head?_iff (c := '(') (by decide)]

end Alike

/-- Before alike texts the longest match is the same, except after a quote or an exclamation mark. -/
theorem munch_alike {c : Char} {z z' : List Char} (h : Alike z z') (hbang : c ≠ '!')
    (hdouble : c ≠ '"') (hsingle : c ≠ '\'') : munch c z = munch c z' := by
  have hnumeral : numeralLength (c :: z) ≠ 0 →
      measured (numeralLength (c :: z) - 1) z = measured (numeralLength (c :: z) - 1) z' := by
    intro hne
    have hd := (h.cons c).drop_numeralLength
    obtain ⟨n, hn⟩ := Nat.exists_eq_succ_of_ne_zero hne
    rw [hn] at hd ⊢
    exact Alike.measured hd
  have hnameChar := h.drop_runLength (p := isNameChar) fun _ => isNameChar_of_isBarrier
  unfold munch
  rw [if_neg hbang, if_neg hbang]
  simp only [Quote.char, hdouble, hsingle, ↓reduceIte]
  simp only [← h.hyphenNameLength, ← h.runLength (p := isNameChar) fun _ => isNameChar_of_isBarrier,
    ← h.numeralLength, ← (h.cons c).numeralLength, ← Alike.measured h.drop_numeralLength,
    ← Alike.named h.drop_hyphenNameLength, ← Alike.named hnameChar]
  by_cases hne : numeralLength (c :: z) = 0
  · simp only [hne, ne_eq, not_true_eq_false, ↓reduceIte]
  · rw [hnumeral hne]

end TieredStyle.Css
