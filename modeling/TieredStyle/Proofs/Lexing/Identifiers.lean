import TieredStyle.Proofs.Lexing.Alone
import TieredStyle.Proofs.Lexing.Ink
import TieredStyle.Css.Fragment

/-!
# Identifiers

An identifier is made of name characters, so no comment begins in it, and the name of a property reads as itself.
-/
namespace TieredStyle.Css

variable {c : Char} {cs r : List Char}

theorem isNameChar_of_runLength (h : runLength isNameChar cs = cs.length) : ∀ c ∈ cs, isNameChar c = true :=
  all_of_runLength (r := []) (by rwa [List.append_nil])

theorem isNameChar_of_nameLength (h : nameLength cs = cs.length) : ∀ c ∈ cs, isNameChar c = true := by
  cases cs with
  | nil => exact List.forall_mem_nil _
  | cons c cs =>
      rw [nameLength] at h
      split at h
      next hc =>
        exact List.forall_mem_cons.2 ⟨isNameChar_of_isNameStart hc, isNameChar_of_runLength (Nat.succ.inj h)⟩
      next => cases h

theorem isNameChar_of_hyphenNameLength (h : hyphenNameLength cs = cs.length) :
    ∀ c ∈ cs, isNameChar c = true := by
  cases cs with
  | nil => exact List.forall_mem_nil _
  | cons c cs =>
      rw [Alike.hyphenNameLength_eq] at h
      simp only [List.head?_cons, List.drop_succ_cons, List.drop_zero, List.length_cons] at h
      split at h
      next hc =>
        cases Option.some.inj hc
        split at h
        next => cases h
        next => exact List.forall_mem_cons.2 ⟨by decide, isNameChar_of_nameLength (Nat.succ.inj h)⟩
      next => exact isNameChar_of_nameLength h

theorem named_eq_ident {n m : Nat} {z : List Char} (h : named n z = (.ident, m)) : n = m := by
  rw [named] at h
  split at h
  · cases h
  · cases h
    rfl

/-- The characters of an identifier are name characters. -/
theorem isNameChar_of_munch (h : munch c cs = (.ident, cs.length)) : ∀ d ∈ c :: cs, isNameChar d = true := by
  have hc : c = '-' ∨ isNameStart c = true := by
    have hm := munched c cs
    rw [h] at hm
    generalize cs.length = n at hm
    cases hm with
    | ident hc _ => exact hc
  refine List.forall_mem_cons.2 ?_
  obtain rfl | hname := hc
  · have hhyphen : munch '-' cs = if numeralLength cs ≠ 0 then measured (numeralLength cs) cs
        else if hyphenNameLength cs ≠ 0 then named (hyphenNameLength cs) cs else (.delim, 0) := rfl
    rw [hhyphen] at h
    split at h
    next =>
      rw [measured] at h
      split at h
      · cases h
      · split at h <;> cases h
    next =>
      split at h
      next => exact ⟨by decide, isNameChar_of_hyphenNameLength (named_eq_ident h)⟩
      next => cases h
  · have hne : ∀ d, isNameStart d = false → c ≠ d := by
      rintro d hd rfl
      rw [hname] at hd
      cases hd
    rw [munch, if_neg (hne '!' rfl), if_neg (hne '@' rfl), if_neg (hne '#' rfl),
      if_neg (hne Quote.double.char rfl), if_neg (hne Quote.single.char rfl), if_neg (hne '-' rfl),
      if_pos hname] at h
    exact ⟨isNameChar_of_isNameStart hname, isNameChar_of_runLength (named_eq_ident h)⟩

/-- An identifier that is cut off anywhere reads as a property. -/
theorem readProperty_of_stops {p : String} (h : (⟨.ident, p⟩ : Lexeme).Stops r) :
    readProperty p = .ok p := by
  have halone := h.alone
  have hscan := Token.scan_stops halone {} false
  rw [List.append_nil, Token.scan_nil] at hscan
  obtain ⟨c, cs, hp, hc, hm⟩ := halone
  dsimp only at hp hm
  rw [List.append_nil] at hm
  have hall := isNameChar_of_munch hm
  have hu : Uncommented p.toList := by
    rw [hp]
    refine (List.pairwise_of_forall_mem_list fun a ha b _ hab => ?_).isChain
    have hslash := hall a ha
    rw [hab.1] at hslash
    cases hslash
  rw [readProperty, Token.ofText, blankComments_of_uncommented hu, hscan]
  rfl

end TieredStyle.Css
