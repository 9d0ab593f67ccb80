import TieredStyle.Proofs.Lexing.Literals

/-!
# A lexeme alone

A lexeme that is cut off in front of other text is cut off alone too: the longest match does not depend on what
it does not take in.
-/
namespace TieredStyle.Css

/-! ## The same length without what follows -/

/-- As long as it stays within the text, the length does not depend on what follows. -/
def IsLocal (f : List Char → Nat) : Prop :=
  ∀ cs r : List Char, f (cs ++ r) ≤ cs.length → f cs = f (cs ++ r)

theorem isLocal_runLength (p : Char → Bool) : IsLocal (runLength p) := by
  intro cs r h
  induction cs with
  | nil => exact (Nat.le_zero.1 h).symm
  | cons c cs ih =>
      rw [List.cons_append, runLength_cons] at h
      rw [List.cons_append, runLength_cons, runLength_cons]
      split at h
      next hc => rw [if_pos hc, if_pos hc, ih (Nat.le_of_succ_le_succ h)]
      next hc => rw [if_neg hc, if_neg hc]

theorem isLocal_nameLength : IsLocal nameLength := by
  intro cs r h
  cases cs with
  | nil => exact (Nat.le_zero.1 h).symm
  | cons c cs =>
      rw [List.cons_append, nameLength] at h
      rw [List.cons_append, nameLength, nameLength]
      split at h
      next hc => rw [if_pos hc, if_pos hc, isLocal_runLength _ cs r (Nat.le_of_succ_le_succ h)]
      next hc => rw [if_neg hc, if_neg hc]

theorem isLocal_hyphenNameLength : IsLocal hyphenNameLength := by
  intro cs r h
  cases cs with
  | nil => exact (Nat.le_zero.1 h).symm
  | cons c cs =>
      rw [Alike.hyphenNameLength_eq] at h
      rw [Alike.hyphenNameLength_eq, Alike.hyphenNameLength_eq]
      simp only [List.cons_append, List.head?_cons, List.drop_succ_cons, List.drop_zero,
        List.length_cons] at h ⊢
      split at h
      next hc =>
        have hname : nameLength cs = nameLength (cs ++ r) := by
          refine isLocal_nameLength cs r ?_
          split at h <;> omega
        rw [if_pos hc, if_pos hc, hname]
      next hc =>
        rw [if_neg hc, if_neg hc]
        exact isLocal_nameLength (c :: cs) r h

theorem isLocal_numeralLength : IsLocal numeralLength := by
  intro cs r h
  simp only [Alike.numeralLength_eq] at h ⊢
  have hle : runLength Char.isDigit (cs ++ r) ≤ cs.length := by split at h <;> omega
  have hwhole := isLocal_runLength Char.isDigit cs r hle
  rw [← hwhole] at hle h ⊢
  rw [List.drop_append_of_le_length hle] at h ⊢
  have hlength := List.length_drop (i := runLength Char.isDigit cs) (l := cs)
  cases hrest : cs.drop (runLength Char.isDigit cs) with
  | nil =>
      -- a point behind the text would make the number longer than the text
      rw [hrest, List.length_nil] at hlength
      rw [hrest, List.nil_append] at h
      split at h
      next => omega
      next hpoint => rw [List.nil_append, if_neg hpoint, if_neg (by simp)]
  | cons d ds =>
      rw [hrest, List.length_cons] at hlength
      simp only [hrest, List.cons_append, List.head?_cons, List.drop_succ_cons, List.drop_zero] at h ⊢
      by_cases hd : d = '.'
      · have hfraction : runLength Char.isDigit ds = runLength Char.isDigit (ds ++ r) := by
          refine isLocal_runLength _ ds r ?_
          split at h
          next => omega
          next hnone => simp [hd] at hnone; omega
        rw [hfraction]
      · simp [hd]

/-! ## The same lexeme without what follows -/

variable {c : Char} {cs r : List Char} {k : Kind} {n : Nat}

theorem le_of_measured (h : measured n (cs ++ r) = (k, cs.length)) : n ≤ cs.length := by
  have hle : n ≤ (measured n (cs ++ r)).2 := by
    simp only [measured]
    split
    next => exact Nat.le_add_right _ _
    next => split <;> simp
  rwa [h] at hle

theorem le_of_named (h : named n (cs ++ r) = (k, cs.length)) : n ≤ cs.length := by
  have hle : n ≤ (named n (cs ++ r)).2 := by
    simp only [named]
    split <;> simp
  rwa [h] at hle

/-- What is measured at the end of a text is measured there without what follows too. -/
theorem measured_self (h : measured n (cs ++ r) = (k, cs.length)) : measured n cs = (k, cs.length) := by
  have hn := le_of_measured h
  have hlength := List.length_drop (i := n) (l := cs)
  simp only [measured, List.drop_append_of_le_length hn] at h ⊢
  have hunit : runLength Char.isAlpha (cs.drop n) = runLength Char.isAlpha (cs.drop n ++ r) := by
    refine isLocal_runLength _ _ r ?_
    split at h
    next => have := (Prod.mk.inj h).2; omega
    next hzero => omega
  rw [hunit]
  split at h
  next hne => rwa [if_pos hne]
  next hzero =>
    rw [if_neg hzero]
    cases hrest : cs.drop n with
    | nil =>
        rw [hrest, List.length_nil] at hlength
        split at h
        next => have := (Prod.mk.inj h).2; omega
        next => exact h
    | cons d ds =>
        rw [hrest] at h
        exact h

theorem named_self (h : named n (cs ++ r) = (k, cs.length)) : named n cs = (k, cs.length) := by
  have hn := le_of_named h
  have hlength := List.length_drop (i := n) (l := cs)
  simp only [named, List.drop_append_of_le_length hn] at h ⊢
  cases hrest : cs.drop n with
  | nil =>
      rw [hrest, List.length_nil] at hlength
      split at h
      next => have := (Prod.mk.inj h).2; omega
      next => exact h
  | cons d ds =>
      rw [hrest] at h
      exact h

theorem literalLength_self {q : Char} {closed : Bool}
    (h : literalLength q (cs ++ r) = (cs.length, closed)) : literalLength q cs = (cs.length, closed) := by
  cases closed with
  | true =>
      have hclosed := literalLength_append r [] h
      rwa [List.append_nil] at hclosed
  | false =>
      have hopen := (literalBody_of_literalLength h).literalLength_append []
      rwa [List.append_nil] at hopen

theorem quotedFrom_self {q : Quote} (h : quotedFrom q (cs ++ r) = (k, cs.length)) :
    quotedFrom q cs = (k, cs.length) := by
  have hself := literalLength_self (Prod.ext (Prod.mk.inj h).2 rfl)
  rw [quotedFrom] at h ⊢
  rw [hself]
  exact Prod.ext (Prod.mk.inj h).1 rfl

/-- A lexeme that is cut off in front of other text is cut off alone too. -/
theorem munch_self (h : munch c (cs ++ r) = (k, cs.length)) : munch c cs = (k, cs.length) := by
  by_cases hbang : c = '!'
  · subst hbang
    rcases munch_bang (cs ++ r) with hk | hk
    · cases (congrArg Prod.fst h).symm.trans hk
      have himportant := munch_important [] h
      rwa [List.append_nil] at himportant
    · cases (congrArg Prod.fst h).symm.trans hk
      have hblank := (munch_loneBang.1 h).1
      have hbang := (munch_loneBang (r := [])).2 ⟨hblank, by simp, by decide⟩
      rwa [List.append_nil] at hbang
  have hzero : ∀ {f : List Char → Nat}, IsLocal f → f (cs ++ r) = 0 → f cs = 0 := fun hf h0 =>
    (hf cs r (h0 ▸ Nat.zero_le _)).trans h0
  have hlength : ∀ {f : List Char → Nat} {k' : Kind}, IsLocal f → (k', f (cs ++ r)) = (k, cs.length) →
      f cs = f (cs ++ r) := fun hf heq => hf cs r (Nat.le_of_eq (Prod.mk.inj heq).2)
  rw [munch, if_neg hbang] at h ⊢
  by_cases hat : c = '@'
  · rw [if_pos hat] at h ⊢
    split at h
    next h0 => rwa [if_pos (hzero isLocal_hyphenNameLength h0)]
    next hne => rwa [hlength isLocal_hyphenNameLength h, if_neg hne]
  rw [if_neg hat] at h ⊢
  by_cases hhash : c = '#'
  · rw [if_pos hhash] at h ⊢
    split at h
    next h0 => rwa [if_pos (hzero (isLocal_runLength _) h0)]
    next hne => rwa [hlength (isLocal_runLength _) h, if_neg hne]
  rw [if_neg hhash] at h ⊢
  by_cases hdouble : c = Quote.double.char
  · rw [if_pos hdouble] at h ⊢
    exact quotedFrom_self h
  rw [if_neg hdouble] at h ⊢
  by_cases hsingle : c = Quote.single.char
  · rw [if_pos hsingle] at h ⊢
    exact quotedFrom_self h
  rw [if_neg hsingle] at h ⊢
  by_cases hhyphen : c = '-'
  · rw [if_pos hhyphen] at h ⊢
    split at h
    next hne =>
      rw [isLocal_numeralLength cs r (le_of_measured h), if_pos hne]
      exact measured_self h
    next h0 =>
      rw [if_neg (not_not.2 (hzero isLocal_numeralLength (not_not.1 h0)))]
      split at h
      next hne =>
        rw [isLocal_hyphenNameLength cs r (le_of_named h), if_pos hne]
        exact named_self h
      next h0 => rwa [if_neg (not_not.2 (hzero isLocal_hyphenNameLength (not_not.1 h0)))]
  rw [if_neg hhyphen] at h ⊢
  by_cases hname : isNameStart c = true
  · rw [if_pos hname] at h ⊢
    rw [isLocal_runLength _ cs r (le_of_named h)]
    exact named_self h
  rw [if_neg hname] at h ⊢
  have hnumeral : numeralLength (c :: cs) = numeralLength (c :: (cs ++ r)) := by
    refine isLocal_numeralLength (c :: cs) r ?_
    change numeralLength (c :: (cs ++ r)) ≤ cs.length + 1
    split at h
    next => exact Nat.le_add_of_sub_le (le_of_measured h)
    next h0 => rw [not_not.1 h0]; exact Nat.zero_le _
  rw [hnumeral]
  split at h
  next hne =>
    rw [if_pos hne]
    exact measured_self h
  next h0 => rwa [if_neg h0]

theorem Lexeme.Stops.alone {l : Lexeme} (h : l.Stops r) : l.Stops [] := by
  obtain ⟨c, cs, ht, hc, hm⟩ := h
  exact ⟨c, cs, ht, hc, by rw [List.append_nil]; exact munch_self hm⟩

theorem Lexeme.Stops.lexemes_text {l : Lexeme} (h : l.Stops r) : lexemes l.text = [l] := by
  have hscan := Token.scan_stops h.alone {} false
  rw [List.append_nil, Token.scan_nil] at hscan
  rw [lexemes, hscan]
  rfl

end TieredStyle.Css
