import TieredStyle.Proofs.Json.Local

/-!
# Strings that are well formed, and what they stand for

What follows an opening quote is skipped up to the closing one if its escapes are well formed. It is read only if
they stand for characters, which surrogates do in pairs alone. Neither hangs on what comes behind the closing quote.
-/
namespace TieredStyle.Json

/-- What follows an opening quote, up to the closing one. -/
inductive Chars : List Char → Prop
  | close : Chars ['"']
  | unicode {a b c d : Char} {n : Nat} {cs : List Char} : unit? a b c d = some n → Chars cs →
      Chars ('\\' :: 'u' :: a :: b :: c :: d :: cs)
  | short {c x : Char} {cs : List Char} : c ≠ 'u' → shortEscape? c = some x → Chars cs → Chars ('\\' :: c :: cs)
  | itself {c : Char} {cs : List Char} : c ≠ '"' → c ≠ '\\' → ¬ c.toNat < 0x20 → Chars cs → Chars (c :: cs)

section

variable {c : Char} {cs rest used : List Char}

/-! ## Skipping -/

/-- The text behind the closing quote. -/
def chars? (cs : List Char) : Option (List Char) := (skipChars cs).map Subtype.val

theorem chars?_nil : chars? [] = none := by
  rw [chars?, skipChars]
  rfl

theorem chars?_close (cs : List Char) : chars? ('"' :: cs) = some cs := by
  rw [chars?, skipChars.eq_def]
  rfl

theorem chars?_unicode (a b c d : Char) (cs : List Char) :
    chars? ('\\' :: 'u' :: a :: b :: c :: d :: cs) = (unit? a b c d).bind fun _ => chars? cs := by
  rw [chars?, skipChars]
  cases unit? a b c d with
  | none => rfl
  | some n => cases h : skipChars cs <;> simp [chars?, h]

theorem chars?_backslash (hc : ∀ a b d e more, c = 'u' → cs = a :: b :: d :: e :: more → False) :
    chars? ('\\' :: c :: cs) = (shortEscape? c).bind fun _ => chars? cs := by
  rw [chars?, skipChars.eq_3 _ _ _ hc]
  cases shortEscape? c with
  | none => rfl
  | some x => cases h : skipChars cs <;> simp [chars?, h]

theorem chars?_itself (hquote : c ≠ '"') (hslash : c ≠ '\\') (cs : List Char) :
    chars? (c :: cs) = if c.toNat < 0x20 then none else chars? cs := by
  rw [chars?, skipChars.eq_def]
  simp only [hquote, hslash, ↓reduceIte, chars?]
  split
  · rfl
  · cases h : skipChars cs <;> simp

theorem Chars.skipped (h : Chars used) (rest : List Char) : chars? (used ++ rest) = some rest := by
  induction h with
  | close => exact chars?_close rest
  | unicode hn _ ih => simp only [List.cons_append, chars?_unicode, hn, ih, Option.bind_some]
  | short hc hx _ ih =>
      rw [List.cons_append, List.cons_append, chars?_backslash fun _ _ _ _ _ hu _ => hc hu, hx, ih]
      rfl
  | itself hquote hslash hcontrol _ ih =>
      rw [List.cons_append, chars?_itself hquote hslash, if_neg hcontrol, ih]

theorem exists_of_chars? (h : chars? cs = some rest) : ∃ used, Chars used ∧ cs = used ++ rest := by
  induction cs using skipChars.induct with
  | case1 =>
      rw [chars?_nil] at h
      cases h
  | case2 cs =>
      rw [chars?_close] at h
      cases h
      exact ⟨_, .close, rfl⟩
  | case3 a b c d cs _ ih =>
      rw [chars?_unicode] at h
      obtain ⟨n, hn, h⟩ := Option.bind_eq_some_iff.1 h
      obtain ⟨used, hused, rfl⟩ := ih h
      exact ⟨_, .unicode hn hused, rfl⟩
  | case4 c cs hc _ ih =>
      rw [chars?_backslash hc] at h
      obtain ⟨x, hx, h⟩ := Option.bind_eq_some_iff.1 h
      obtain ⟨used, hused, rfl⟩ := ih h
      refine ⟨_, .short ?_ hx hused, rfl⟩
      rintro rfl
      cases hx
  | case5 _ =>
      rw [chars?, skipChars] at h
      cases h
  | case6 c cs hquote hslash hcontrol =>
      rw [chars?_itself hquote hslash, if_pos hcontrol] at h
      cases h
  | case7 c cs hquote hslash hcontrol ih =>
      rw [chars?_itself hquote hslash, if_neg hcontrol] at h
      obtain ⟨used, hused, rfl⟩ := ih h
      exact ⟨_, .itself hquote hslash hcontrol hused, rfl⟩

/-! ## Reading -/

/-- The character that an escape stands for, behind its backslash. -/
def escape? (cs : List Char) : Option (Char × List Char) := (takeEscape cs).map pair

/-- The characters up to the closing quote. -/
def letters? (cs : List Char) : Option (List Char × List Char) := (takeChars cs).map pair

theorem letters?_nil : letters? [] = none := by
  rw [letters?, takeChars]
  rfl

theorem letters?_close (cs : List Char) : letters? ('"' :: cs) = some ([], cs) := by
  rw [letters?, takeChars]
  rfl

theorem letters?_escape (cs : List Char) : letters? ('\\' :: cs) =
    (escape? cs).bind fun p => (letters? p.2).map fun q => (p.1 :: q.1, q.2) := by
  rw [letters?, takeChars, escape?]
  cases takeEscape cs with
  | none => rfl
  | some p => cases h : takeChars p.rest <;> simp [letters?, h, pair]

theorem letters?_itself (hquote : c ≠ '"') (hslash : c ≠ '\\') (cs : List Char) :
    letters? (c :: cs) =
      if c.toNat < 0x20 then none else (letters? cs).map fun q => (c :: q.1, q.2) := by
  rw [letters?, takeChars]
  simp only [hquote, hslash, ↓reduceIte, letters?]
  split
  · rfl
  · cases h : takeChars cs <;> simp [pair]

theorem escape?_short (hc : c ≠ 'u') (cs : List Char) :
    escape? (c :: cs) = (shortEscape? c).map fun x => (x, cs) := by
  simp only [escape?, takeEscape, hc, ↓reduceIte, Option.map_map, Function.comp_def, pair]

/-- What a high surrogate and the escape behind it stand for. -/
def partner? (high : Nat) (cs : List Char) : Option (Char × List Char) :=
  match cs with
  | '\\' :: 'u' :: a :: b :: c :: d :: rest => (unit? a b c d).bind fun low =>
    if 0xDC00 ≤ low ∧ low ≤ 0xDFFF then
      some (Char.ofNat (0x10000 + (high - 0xD800) * 0x400 + (low - 0xDC00)), rest)
    else none
  | _ => none

theorem escape?_unicode (a b c d : Char) (cs : List Char) : escape? ('u' :: a :: b :: c :: d :: cs) =
    (unit? a b c d).bind fun high =>
      if 0xDC00 ≤ high ∧ high ≤ 0xDFFF then none
      else if 0xD800 ≤ high ∧ high ≤ 0xDBFF then partner? high cs
      else some (Char.ofNat high, cs) := by
  rw [escape?, takeEscape, if_pos rfl, takeUnicode]
  cases unit? a b c d with
  | none => rfl
  | some high =>
      simp only [Option.bind_eq_bind, Option.bind_some]
      split
      · rfl
      split
      · split
        next e f g h rest =>
          simp only [partner?]
          cases unit? e f g h with
          | none => rfl
          | some low =>
              simp only [Option.bind_some]
              split <;> simp only [Option.map_some, Option.map_none, Parsed.widen, pair]
        next hlone =>
          rw [partner?.eq_2 _ _ hlone]
          rfl
      · rfl

theorem escape?_unended (h : ∀ a b d e more, cs = a :: b :: d :: e :: more → False) :
    escape? ('u' :: cs) = none := by
  rw [escape?, takeEscape, if_pos rfl, takeUnicode.eq_2 _ h]
  rfl

/-- Whether an escape has a partner does not hang on what comes behind the string. -/
theorem Chars.partner (h : Chars used) (high : Nat) :
    (∀ rest, partner? high (used ++ rest) = none) ∨ ∃ x used', Chars used' ∧ used'.length < used.length ∧
      ∀ rest, partner? high (used ++ rest) = some (x, used' ++ rest) := by
  cases h with
  | close => exact .inl fun _ => rfl
  | @unicode a b c d low cs hlow hcs =>
      by_cases hpair : 0xDC00 ≤ low ∧ low ≤ 0xDFFF
      · have hlt : cs.length < ('\\' :: 'u' :: a :: b :: c :: d :: cs).length := by
          simp only [List.length_cons]
          omega
        refine .inr ⟨Char.ofNat (0x10000 + (high - 0xD800) * 0x400 + (low - 0xDC00)), cs, hcs, hlt, fun rest => ?_⟩
        simp only [List.cons_append, partner?, hlow, Option.bind_some, if_pos hpair]
      · refine .inl fun rest => ?_
        simp only [List.cons_append, partner?, hlow, Option.bind_some, if_neg hpair]
  | short hc =>
      refine .inl fun rest => partner?.eq_2 _ _ ?_
      intro _ _ _ _ _ h
      exact hc (List.cons.inj (List.cons.inj h).2).1
  | itself _ hslash =>
      refine .inl fun rest => partner?.eq_2 _ _ ?_
      intro _ _ _ _ _ h
      exact hslash (List.cons.inj h).1

theorem chars?_of_partner? {high : Nat} {x : Char} (h : partner? high cs = some (x, rest)) :
    chars? cs = chars? rest := by
  unfold partner? at h
  split at h
  next a b c d more =>
    obtain ⟨low, hlow, h⟩ := Option.bind_eq_some_iff.1 h
    split at h
    next =>
      obtain ⟨-, rfl⟩ := Prod.mk.inj (Option.some.inj h)
      rw [chars?_unicode, hlow]
      rfl
    next => cases h
  next => cases h

/-- What a string stands for, if it stands for anything, does not hang on what comes behind it. -/
theorem Chars.read (h : Chars used) :
    ∃ letters : Option (List Char), ∀ rest, letters? (used ++ rest) = letters.map fun xs => (xs, rest) := by
  -- on the length, since a pair of surrogates takes two escapes at once
  induction hn : used.length using Nat.strong_induction_on generalizing used with
  | _ n ih =>
    subst hn
    cases h with
    | close => exact ⟨some [], letters?_close⟩
    | @unicode a b c d high cs hhigh hcs =>
        by_cases hlow : 0xDC00 ≤ high ∧ high ≤ 0xDFFF
        · refine ⟨none, fun rest => ?_⟩
          simp only [List.cons_append, letters?_escape, escape?_unicode, hhigh, Option.bind_some, if_pos hlow,
            Option.bind_none, Option.map_none]
        by_cases hsurrogate : 0xD800 ≤ high ∧ high ≤ 0xDBFF
        · obtain halone | ⟨x, cs', hcs', hlt, hpaired⟩ := hcs.partner high
          · refine ⟨none, fun rest => ?_⟩
            simp only [List.cons_append, letters?_escape, escape?_unicode, hhigh, Option.bind_some, if_neg hlow,
              if_pos hsurrogate, halone, Option.bind_none, Option.map_none]
          · obtain ⟨letters, hletters⟩ := ih cs'.length (by simp only [List.length_cons]; omega) hcs' rfl
            refine ⟨letters.map (x :: ·), fun rest => ?_⟩
            simp only [List.cons_append, letters?_escape, escape?_unicode, hhigh, Option.bind_some, if_neg hlow,
              if_pos hsurrogate, hpaired, hletters, Option.map_map, Function.comp_def]
        · obtain ⟨letters, hletters⟩ := ih cs.length (by simp only [List.length_cons]; omega) hcs rfl
          refine ⟨letters.map (Char.ofNat high :: ·), fun rest => ?_⟩
          simp only [List.cons_append, letters?_escape, escape?_unicode, hhigh, Option.bind_some, if_neg hlow,
            if_neg hsurrogate, hletters, Option.map_map, Function.comp_def]
    | @short c x cs hc hx hcs =>
        obtain ⟨letters, hletters⟩ := ih cs.length (by simp only [List.length_cons]; omega) hcs rfl
        refine ⟨letters.map (x :: ·), fun rest => ?_⟩
        simp only [List.cons_append, letters?_escape, escape?_short hc, hx, Option.map_some, Option.bind_some,
          hletters, Option.map_map, Function.comp_def]
    | @itself c cs hquote hslash hcontrol hcs =>
        obtain ⟨letters, hletters⟩ := ih cs.length (by simp only [List.length_cons]; omega) hcs rfl
        refine ⟨letters.map (c :: ·), fun rest => ?_⟩
        simp only [List.cons_append, letters?_itself hquote hslash, if_neg hcontrol, hletters, Option.map_map,
          Function.comp_def]

theorem chars?_of_escape? {x : Char} (h : escape? cs = some (x, rest)) : chars? ('\\' :: cs) = chars? rest := by
  cases cs with
  | nil => cases h
  | cons c cs =>
      by_cases hc : c = 'u'
      · subst hc
        by_cases hlong : ∃ a b d e more, cs = a :: b :: d :: e :: more
        · obtain ⟨a, b, c, d, more, rfl⟩ := hlong
          rw [escape?_unicode] at h
          obtain ⟨high, hhigh, h⟩ := Option.bind_eq_some_iff.1 h
          rw [chars?_unicode, hhigh, Option.bind_some]
          split at h
          next => cases h
          next =>
            split at h
            next => exact chars?_of_partner? h
            next =>
              cases h
              rfl
        · rw [escape?_unended fun a b d e more h => hlong ⟨a, b, d, e, more, h⟩] at h
          cases h
      · rw [escape?_short hc] at h
        obtain ⟨x, hx, h⟩ := Option.map_eq_some_iff.1 h
        cases h
        rw [chars?_backslash fun _ _ _ _ _ hu _ => hc hu, hx]
        rfl

/-- What is read as a string is well formed. -/
theorem chars?_of_letters? {xs : List Char} (h : letters? cs = some (xs, rest)) : chars? cs = some rest := by
  induction cs using takeChars.induct generalizing xs with
  | case1 =>
      rw [letters?_nil] at h
      cases h
  | case2 cs =>
      rw [letters?_close] at h
      cases h
      exact chars?_close _
  | case3 cs _ ih =>
      rw [letters?_escape] at h
      obtain ⟨⟨x, rest'⟩, hx, h⟩ := Option.bind_eq_some_iff.1 h
      obtain ⟨⟨xs, rest⟩, hxs, h⟩ := Option.map_eq_some_iff.1 h
      cases h
      obtain ⟨p, hp, hrest⟩ := Option.map_eq_some_iff.1 hx
      cases hrest
      rw [chars?_of_escape? hx]
      exact ih p.rest p.length_rest_le hxs
  | case4 c cs hquote hslash hcontrol =>
      rw [letters?_itself hquote hslash, if_pos hcontrol] at h
      cases h
  | case5 c cs hquote hslash hcontrol ih =>
      rw [letters?_itself hquote hslash, if_neg hcontrol] at h
      obtain ⟨⟨xs, rest⟩, hxs, h⟩ := Option.map_eq_some_iff.1 h
      cases h
      rw [chars?_itself hquote hslash, if_neg hcontrol]
      exact ih hxs

end

end TieredStyle.Json
