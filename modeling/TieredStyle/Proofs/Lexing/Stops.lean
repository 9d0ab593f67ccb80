import TieredStyle.Css.Token
import TieredStyle.Proofs.Lexing.Alike

/-!
# Where a lexeme stops

A lexeme stops before a text if the longest match at its first character, with that text behind it, is
the lexeme. The lexemes of a scan stop before what is left of the text, and a text that starts with a
lexeme which stops there is scanned into it and the tokens of the rest.
-/
namespace TieredStyle.Css
open TieredStyle.Text

namespace Lexeme

/-- The lexeme is what is cut off in front of `r`. -/
def Stops (l : Lexeme) (r : List Char) : Prop :=
  ∃ c cs, l.text.toList = c :: cs ∧ isBlank c = false ∧ munch c (cs ++ r) = (l.kind, cs.length)

/-- A string literal with no end. -/
def isOpenLiteral (l : Lexeme) : Bool :=
  l.kind = .delim && (l.text.toList.head? = some '"' || l.text.toList.head? = some '\'')

/-- An exclamation mark that starts no `!important`. -/
def isLoneBang (l : Lexeme) : Bool := l.kind = .delim && l.text.toList.head? = some '!'

end Lexeme

theorem isBreak_of_isBlank {c : Char} (h : isBlank c = true) : isBreak c = true := by
  simp only [isBlank, Bool.or_eq_true, decide_eq_true_eq] at h
  rcases h with (((rfl | rfl) | rfl) | rfl) | rfl <;> decide

/-! ## Lengths stay within the text -/

theorem runLength_le (p : Char → Bool) (cs : List Char) : runLength p cs ≤ cs.length :=
  (List.takeWhile_sublist p).length_le

theorem nameLength_le (cs : List Char) : nameLength cs ≤ cs.length := by
  cases cs with
  | nil => exact Nat.le_refl _
  | cons c cs =>
      simp only [nameLength]
      split
      · exact Nat.succ_le_succ (runLength_le _ _)
      · exact Nat.zero_le _

theorem hyphenNameLength_le (cs : List Char) : hyphenNameLength cs ≤ cs.length := by
  unfold hyphenNameLength
  split
  next cs =>
    split
    · exact Nat.zero_le _
    · exact Nat.succ_le_succ (nameLength_le cs)
  next => exact nameLength_le _

theorem numeralLength_le (cs : List Char) : numeralLength cs ≤ cs.length := by
  have hn := runLength_le Char.isDigit cs
  simp only [numeralLength]
  split
  next ds hd =>
    have hl := congrArg List.length hd
    have hm := runLength_le Char.isDigit ds
    simp only [List.length_drop, List.length_cons] at hl
    split <;> omega
  next => exact hn

theorem literalLength_le (q : Char) (cs : List Char) : (literalLength q cs).1 ≤ cs.length := by
  fun_induction literalLength q cs with
  | case1 | case2 | case3 | case4 => exact Nat.zero_le _
  | case5 d cs hd n closed hl ih =>
      rw [hl] at ih
      exact Nat.succ_le_succ (Nat.succ_le_succ ih)
  | case6 => exact Nat.succ_le_succ (Nat.zero_le _)
  | case7 c cs _ _ _ _ hc n closed hl ih =>
      rw [hl] at ih
      exact Nat.succ_le_succ ih

theorem lt_length_of_head?_drop {n : Nat} {cs : List Char} {c : Char}
    (h : (cs.drop n).head? = some c) : n < cs.length := by
  rw [List.head?_drop] at h
  exact (List.getElem?_eq_some_iff.1 h).1

theorem measured_le {n : Nat} {cs : List Char} (h : n ≤ cs.length) : (measured n cs).2 ≤ cs.length := by
  have hr := runLength_le Char.isAlpha (cs.drop n)
  rw [List.length_drop] at hr
  simp only [measured]
  split
  · simp only; omega
  · split
    next hp => exact lt_length_of_head?_drop hp
    next => exact h

theorem length_of_startsImportant {cs : List Char} (h : startsImportant cs = true) :
    9 ≤ cs.length := by
  simp only [startsImportant, decide_eq_true_eq] at h
  have hl := congrArg List.length h
  simp only [List.length_map, List.length_take, List.length_cons, List.length_nil] at hl
  omega

/-! ## The ways of a longest match -/

/-- What the longest match after `c` can be, by its first character. -/
inductive Munched (c : Char) (z : List Char) : Kind → Nat → Prop
  | important {n : Nat} : c = '!' → n + 9 ≤ z.length → Munched c z .important (n + 9)
  | bang : c = '!' → Munched c z .delim (runLength isBlank z)
  | single : c ≠ '!' → c ≠ '"' → c ≠ '\'' → Munched c z .delim 0
  | atKeyword : c = '@' → Munched c z .atKeyword (hyphenNameLength z)
  | hash : c = '#' → Munched c z .hash (runLength isNameChar z)
  | quoted {q : Quote} : c = q.char → Munched c z (.quoted q) (literalLength q.char z).1
  | openLiteral {q : Quote} : c = q.char → (literalLength q.char z).2 = false →
      Munched c z .delim (literalLength q.char z).1
  | dimension {n : Nat} : c = '-' ∨ c.isDigit = true ∨ c = '.' → n ≤ z.length →
      Munched c z .dimension n
  | number {n : Nat} : c = '-' ∨ c.isDigit = true ∨ c = '.' → n ≤ z.length → Munched c z .number n
  | function {n : Nat} : c = '-' ∨ isNameStart c = true → (z.drop n).head? = some '(' →
      Munched c z .function (n + 1)
  | ident {n : Nat} : c = '-' ∨ isNameStart c = true → n ≤ z.length → Munched c z .ident n
  | mark {m : Mark} : m.char = c → Munched c z (.mark m) 0

namespace Munched

variable {c : Char} {z : List Char}

theorem quotedFrom {q : Quote} (h : c = q.char) :
    Munched c z (quotedFrom q z).1 (quotedFrom q z).2 := by
  simp only [Css.quotedFrom]
  cases hl : (literalLength q.char z).2 with
  | true => exact .quoted h
  | false => exact .openLiteral h hl

theorem measured {n : Nat} (h : c = '-' ∨ c.isDigit = true ∨ c = '.') (hn : n ≤ z.length) :
    Munched c z (measured n z).1 (measured n z).2 := by
  have hle := measured_le hn
  simp only [Css.measured] at hle ⊢
  split at hle
  next hu =>
    rw [if_pos hu]
    exact .dimension h hle
  next hu =>
    rw [if_neg hu]
    split at hle
    next hp =>
      rw [if_pos hp]
      exact .dimension h hle
    next hp =>
      rw [if_neg hp]
      exact .number h hle

theorem named {n : Nat} (h : c = '-' ∨ isNameStart c = true) (hn : n ≤ z.length) :
    Munched c z (named n z).1 (named n z).2 := by
  simp only [Css.named]
  split
  next hp => exact .function h hp
  next => exact .ident h hn

theorem le {k : Kind} {n : Nat} (h : Munched c z k n) : n ≤ z.length := by
  cases h with
  | important _ h => exact h
  | bang _ => exact runLength_le _ z
  | single _ _ _ => exact Nat.zero_le _
  | atKeyword _ => exact hyphenNameLength_le z
  | hash _ => exact runLength_le _ z
  | quoted _ => exact literalLength_le _ z
  | openLiteral _ _ => exact literalLength_le _ z
  | dimension _ h => exact h
  | number _ h => exact h
  | function _ h => exact lt_length_of_head?_drop h
  | ident _ h => exact h
  | mark _ => exact Nat.zero_le _

end Munched

theorem munch_bang_eq (z : List Char) : munch '!' z =
    if startsImportant (z.drop (runLength isBlank z)) then (.important, runLength isBlank z + 9)
    else (.delim, runLength isBlank z) := if_pos rfl

/-- An exclamation mark starts an `!important`, or it is a delimiter. -/
theorem munch_bang (z : List Char) : (munch '!' z).1 = .important ∨ (munch '!' z).1 = .delim := by
  rw [munch_bang_eq]
  split
  · exact .inl rfl
  · exact .inr rfl

theorem munched (c : Char) (z : List Char) : Munched c z (munch c z).1 (munch c z).2 := by
  by_cases hbang : c = '!'
  · rw [hbang, munch_bang_eq]
    split
    next hi =>
      have hle := length_of_startsImportant hi
      rw [List.length_drop] at hle
      exact .important rfl (by omega)
    next => exact .bang rfl
  rw [munch, if_neg hbang]
  by_cases hat : c = '@'
  · rw [if_pos hat]
    split
    · exact .single hbang (by rw [hat]; decide) (by rw [hat]; decide)
    · exact .atKeyword hat
  rw [if_neg hat]
  by_cases hhash : c = '#'
  · rw [if_pos hhash]
    split
    · exact .single hbang (by rw [hhash]; decide) (by rw [hhash]; decide)
    · exact .hash hhash
  rw [if_neg hhash]
  by_cases hdouble : c = Quote.double.char
  · rw [if_pos hdouble]
    exact .quotedFrom hdouble
  rw [if_neg hdouble]
  by_cases hsingle : c = Quote.single.char
  · rw [if_pos hsingle]
    exact .quotedFrom hsingle
  rw [if_neg hsingle]
  by_cases hhyphen : c = '-'
  · rw [if_pos hhyphen]
    split
    · exact .measured (.inl hhyphen) (numeralLength_le z)
    · split
      · exact .named (.inl hhyphen) (hyphenNameLength_le z)
      · exact .single hbang hdouble hsingle
  rw [if_neg hhyphen]
  by_cases hname : isNameStart c = true
  · rw [if_pos hname]
    exact .named (.inr hname) (runLength_le _ z)
  rw [if_neg hname]
  split
  next hn =>
    have hle := numeralLength_le (c :: z)
    rw [List.length_cons] at hle
    refine .measured ?_ (by omega)
    by_cases hd : c.isDigit = true
    · exact .inr (.inl hd)
    · refine .inr (.inr ?_)
      have h0 : runLength Char.isDigit (c :: z) = 0 := by rw [runLength_cons, if_neg hd]
      by_cases hdot : c = '.'
      · exact hdot
      · simp [numeralLength, h0, hdot] at hn
  next =>
    split
    next m hm => exact .mark (Mark.char_of_ofChar? hm)
    next => exact .single hbang hdouble hsingle

theorem munch_le (c : Char) (z : List Char) : (munch c z).2 ≤ z.length := (munched c z).le

/-! ## What follows a lexeme -/

theorem runLength_append {p : Char → Bool} {cs : List Char} (r r' : List Char)
    (h : runLength p (cs ++ r) < cs.length) : runLength p (cs ++ r') = runLength p (cs ++ r) := by
  induction cs with
  | nil => cases h
  | cons c cs ih =>
      rw [List.cons_append, runLength_cons] at h
      rw [List.cons_append, List.cons_append, runLength_cons, runLength_cons]
      split at h
      next hc => rw [if_pos hc, if_pos hc, ih (Nat.lt_of_succ_lt_succ h)]
      next hc => rw [if_neg hc, if_neg hc]

theorem runLength_append_of_all {p : Char → Bool} {cs r : List Char} (h : ∀ c ∈ cs, p c = true)
    (hr : ∀ c ∈ r.head?, p c = false) : runLength p (cs ++ r) = cs.length := by
  induction cs with
  | nil =>
      cases r with
      | nil => rfl
      | cons d r => rw [List.nil_append, runLength_cons, hr d rfl]; rfl
  | cons c cs ih =>
      rw [List.cons_append, runLength_cons, if_pos (h c List.mem_cons_self),
        ih fun d hd => h d (List.mem_cons_of_mem _ hd)]
      rfl

theorem all_of_runLength {p : Char → Bool} {cs r : List Char}
    (h : runLength p (cs ++ r) = cs.length) : ∀ c ∈ cs, p c = true := by
  induction cs with
  | nil =>
      intro c hc
      cases hc
  | cons c cs ih =>
      rw [List.cons_append, runLength_cons] at h
      split at h
      next hc =>
        intro d hd
        rcases List.mem_cons.1 hd with rfl | hd
        · exact hc
        · exact ih (Nat.succ.inj h) d hd
      next => cases h

theorem head?_of_runLength {p : Char → Bool} {cs r : List Char}
    (h : runLength p (cs ++ r) = cs.length) : ∀ c ∈ r.head?, p c = false := by
  induction cs with
  | nil =>
      intro c hc
      cases r with
      | nil => cases hc
      | cons d r =>
          cases hc
          rw [List.nil_append, runLength_cons] at h
          split at h
          · cases h
          next hd => simpa using hd
  | cons c cs ih =>
      rw [List.cons_append, runLength_cons] at h
      split at h
      · exact ih (Nat.succ.inj h)
      · cases h

theorem Alike.take_map_eq {w z z' : List Char} (h : Alike z z') (hw : ∀ c ∈ w, isBarrier c = false) :
    (z.take w.length).map Char.toLower = w ↔ (z'.take w.length).map Char.toLower = w := by
  have not_of_barrier : ∀ {c d : Char} {cs ds : List Char}, isBarrier c = true →
      (∀ e ∈ d :: ds, isBarrier e = false) → c.toLower :: cs ≠ d :: ds := by
    intro c d cs ds hc hd he
    have hu : c.isUpper = false := (Bool.or_eq_false_iff.1 (isAlpha_of_isBarrier hc)).1
    have hl : c.toLower = c := dif_neg (decide_eq_false_iff_not.1 hu)
    have := hd d List.mem_cons_self
    rw [← (List.cons.inj he).1, hl, hc] at this
    cases this
  induction w generalizing z z' with
  | nil => simp
  | cons d w ih =>
      have not_of_ends : ∀ {r : List Char}, Ends r →
          (r.take (d :: w).length).map Char.toLower ≠ d :: w := by
        intro r hr he
        cases r with
        | nil => cases he
        | cons c r => exact not_of_barrier (isBarrier_of_isBreak (ends_cons.1 hr)) hw he
      cases h with
      | ends h h' => exact iff_of_false (not_of_ends h) (not_of_ends h')
      | barrier hb => exact iff_of_false (not_of_barrier hb hw) (not_of_barrier hb hw)
      | cons c h =>
          have ih := ih h fun e he => hw e (List.mem_cons_of_mem _ he)
          simp only [List.length_cons, List.take_succ_cons, List.map_cons, List.cons.injEq]
          exact and_congr Iff.rfl ih

theorem Alike.startsImportant {z z' : List Char} (h : Alike z z') :
    startsImportant z = startsImportant z' := by
  simp only [Css.startsImportant, decide_eq_decide]
  have hword : ['i', 'm', 'p', 'o', 'r', 't', 'a', 'n', 't'].all (!isBarrier ·) = true := by decide
  exact h.take_map_eq fun c hc => by simpa using List.all_eq_true.1 hword c hc

theorem literalLength_cons {q c : Char} (hn : c ≠ '\n') (hb : c ≠ '\\') (cs : List Char) :
    literalLength q (c :: cs) =
      if c = q then (1, true) else ((literalLength q cs).1 + 1, (literalLength q cs).2) := by
  rw [literalLength.eq_def]
  split <;> simp_all

theorem literalLength_escape {q d : Char} (hd : d ≠ '\n') (cs : List Char) :
    literalLength q ('\\' :: d :: cs) = ((literalLength q cs).1 + 2, (literalLength q cs).2) := by
  simp [literalLength]

/-- Characters of a string literal that neither close it nor end it. -/
inductive LiteralBody (q : Char) : List Char → Prop
  | nil : LiteralBody q []
  | plain {c : Char} {cs : List Char} :
      c ≠ '\n' → c ≠ '\\' → c ≠ q → LiteralBody q cs → LiteralBody q (c :: cs)
  | escape {d : Char} {cs : List Char} : d ≠ '\n' → LiteralBody q cs → LiteralBody q ('\\' :: d :: cs)

theorem LiteralBody.literalLength_append {q : Char} {cs : List Char} (h : LiteralBody q cs)
    (w : List Char) :
    literalLength q (cs ++ w) = (cs.length + (literalLength q w).1, (literalLength q w).2) := by
  induction h with
  | nil => simp
  | plain hn hb hq _ ih =>
      rw [List.cons_append, literalLength_cons hn hb, if_neg hq, ih, List.length_cons,
        Nat.add_right_comm]
  | escape hd _ ih =>
      rw [List.cons_append, List.cons_append, literalLength_escape hd, ih, List.length_cons,
        List.length_cons, Nat.add_right_comm]

/-- A string literal is read up to its closing quote, or up to where nothing more is read. -/
theorem exists_literalBody (q : Char) (cs : List Char) :
    ∃ body rest, cs = body ++ rest ∧ LiteralBody q body ∧ (literalLength q rest = (0, false) ∨
      ∃ r, rest = q :: r ∧ q ≠ '\n' ∧ q ≠ '\\') := by
  match cs with
  | [] => exact ⟨[], [], rfl, .nil, .inl rfl⟩
  | c :: cs =>
      by_cases hn : c = '\n'
      · subst hn
        exact ⟨[], _, rfl, .nil, .inl rfl⟩
      by_cases hb : c = '\\'
      · subst hb
        match cs with
        | [] => exact ⟨[], _, rfl, .nil, .inl rfl⟩
        | d :: cs =>
            by_cases hd : d = '\n'
            · subst hd
              exact ⟨[], _, rfl, .nil, .inl rfl⟩
            · obtain ⟨body, rest, rfl, hbody, hrest⟩ := exists_literalBody q cs
              exact ⟨'\\' :: d :: body, rest, rfl, .escape hd hbody, hrest⟩
      by_cases hq : c = q
      · subst hq
        exact ⟨[], _, rfl, .nil, .inr ⟨cs, rfl, hn, hb⟩⟩
      · obtain ⟨body, rest, rfl, hbody, hrest⟩ := exists_literalBody q cs
        exact ⟨c :: body, rest, rfl, .plain hn hb hq hbody, hrest⟩

theorem literalLength_quote {q : Char} (hn : q ≠ '\n') (hb : q ≠ '\\') (r : List Char) :
    literalLength q (q :: r) = (1, true) := by
  rw [literalLength_cons hn hb, if_pos rfl]

/-- A string literal that is closed ends in its quote. -/
theorem exists_of_literalLength {q : Char} {cs r : List Char}
    (h : literalLength q (cs ++ r) = (cs.length, true)) :
    ∃ body, cs = body ++ [q] ∧ LiteralBody q body ∧ q ≠ '\n' ∧ q ≠ '\\' := by
  obtain ⟨body, rest, heq, hbody, hrest⟩ := exists_literalBody q (cs ++ r)
  rw [heq, hbody.literalLength_append] at h
  rcases hrest with hopen | ⟨r', rfl, hn, hb⟩
  · rw [hopen] at h
    cases congrArg Prod.snd h
  · rw [literalLength_quote hn hb] at h
    have hlen : cs.length = (body ++ [q]).length := by
      rw [List.length_append]
      exact (congrArg Prod.fst h).symm
    have hsplit : cs ++ r = (body ++ [q]) ++ r' := by rw [heq, List.append_assoc]; rfl
    exact ⟨body, (List.append_inj hsplit hlen).1, hbody, hn, hb⟩

/-- A string literal with no end has nothing in it that closes it. -/
theorem literalBody_of_literalLength {q : Char} {cs r : List Char}
    (h : literalLength q (cs ++ r) = (cs.length, false)) : LiteralBody q cs := by
  obtain ⟨body, rest, heq, hbody, hrest⟩ := exists_literalBody q (cs ++ r)
  rw [heq, hbody.literalLength_append] at h
  rcases hrest with hopen | ⟨r', rfl, hn, hb⟩
  · rw [hopen] at h
    rw [(List.append_inj heq (congrArg Prod.fst h).symm).1]
    exact hbody
  · rw [literalLength_quote hn hb] at h
    cases congrArg Prod.snd h

/-- A string literal that is closed stays so whatever follows. -/
theorem literalLength_append {q : Char} {cs : List Char} (r r' : List Char)
    (h : literalLength q (cs ++ r) = (cs.length, true)) :
    literalLength q (cs ++ r') = (cs.length, true) := by
  obtain ⟨body, rfl, hbody, hn, hb⟩ := exists_of_literalLength h
  rw [List.append_assoc, hbody.literalLength_append, List.singleton_append,
    literalLength_quote hn hb, List.length_append]
  rfl

theorem startsImportant_append {cs : List Char} (h : cs.length = 9) (r r' : List Char) :
    startsImportant (cs ++ r) = startsImportant (cs ++ r') := by
  simp only [startsImportant, List.take_left' h]

/-- An `!important` stays one whatever follows. -/
theorem munch_important {cs r : List Char} (r' : List Char)
    (h : munch '!' (cs ++ r) = (.important, cs.length)) :
    munch '!' (cs ++ r') = (.important, cs.length) := by
  rw [munch_bang_eq] at h ⊢
  split at h
  next hi =>
    have hlen : cs.length = runLength isBlank (cs ++ r) + 9 := (congrArg Prod.snd h).symm
    have hlt : runLength isBlank (cs ++ r) < cs.length := by omega
    have hn := runLength_append r r' hlt
    have hle : runLength isBlank (cs ++ r) ≤ cs.length := by omega
    rw [List.drop_append_of_le_length hle] at hi
    rw [hn, List.drop_append_of_le_length hle,
      startsImportant_append (by rw [List.length_drop]; omega) r' r, if_pos hi, hlen]
  next => cases h

/-- An `!important` consists of blanks and the word after its exclamation mark. -/
theorem parts_of_important {cs r : List Char} (h : munch '!' (cs ++ r) = (.important, cs.length)) :
    ∃ w word, cs = w ++ word ∧ (∀ c ∈ w, isBlank c = true) ∧
      word.map Char.toLower = ['i', 'm', 'p', 'o', 'r', 't', 'a', 'n', 't'] := by
  rw [munch_bang_eq] at h
  split at h
  next hi =>
    have hlen : runLength isBlank (cs ++ r) + 9 = cs.length := congrArg Prod.snd h
    have hrun : runLength isBlank (cs.take (runLength isBlank (cs ++ r)) ++
        (cs.drop (runLength isBlank (cs ++ r)) ++ r)) =
          (cs.take (runLength isBlank (cs ++ r))).length := by
      rw [← List.append_assoc, List.take_append_drop, List.length_take]
      omega
    refine ⟨_, _, (List.take_append_drop _ cs).symm, all_of_runLength hrun, ?_⟩
    have hword : (cs.drop (runLength isBlank (cs ++ r))).length = 9 := by
      rw [List.length_drop]
      omega
    rw [List.drop_append_of_le_length (by omega)] at hi
    simpa only [startsImportant, List.take_left' hword, decide_eq_true_eq] using hi
  next => cases h

/-- An exclamation mark and the blanks after it stand alone before what is neither blank nor the word
`important`. -/
theorem munch_loneBang {cs r : List Char} :
    munch '!' (cs ++ r) = (.delim, cs.length) ↔
      (∀ c ∈ cs, isBlank c = true) ∧ (∀ c ∈ r.head?, isBlank c = false) ∧
        startsImportant r = false := by
  rw [munch_bang_eq]
  constructor
  · intro h
    split at h
    · cases h
    next hi =>
      have hlen : runLength isBlank (cs ++ r) = cs.length := congrArg Prod.snd h
      rw [hlen, List.drop_left] at hi
      exact ⟨all_of_runLength hlen, head?_of_runLength hlen, by simpa using hi⟩
  · rintro ⟨hcs, hr, hi⟩
    rw [runLength_append_of_all hcs hr, List.drop_left, hi]
    rfl

theorem quotedFrom_append {q : Quote} {cs r : List Char} (r' : List Char)
    (h : quotedFrom q (cs ++ r) = (.quoted q, cs.length)) :
    quotedFrom q (cs ++ r') = (.quoted q, cs.length) := by
  simp only [quotedFrom] at h ⊢
  have hc : (literalLength q.char (cs ++ r)).2 = true := by
    have := congrArg Prod.fst h
    simp only at this
    split at this
    · assumption
    · cases this
  rw [literalLength_append r r' (Prod.ext (congrArg Prod.snd h) hc)]
  rfl

namespace Lexeme.Stops

variable {l : Lexeme} {r r' : List Char}

/-- A lexeme that stops before a text stops before every text alike, unless it is a string literal
with no end or takes in the blanks after an exclamation mark. -/
theorem alike (h : l.Stops r) (hr : Alike r r') (hopen : l.isOpenLiteral = false)
    (hbang : l.isLoneBang = true → ∀ c ∈ r'.head?, isBlank c = false) : l.Stops r' := by
  obtain ⟨c, cs, ht, hc, hm⟩ := h
  refine ⟨c, cs, ht, hc, ?_⟩
  have hquoted : ∀ q : Quote, c = q.char → quotedFrom q (cs ++ r) = (l.kind, cs.length) →
      quotedFrom q (cs ++ r') = (l.kind, cs.length) := by
    intro q hq hm
    by_cases hk : l.kind = .delim
    · exfalso
      cases q <;> simp [Lexeme.isOpenLiteral, hk, ht, hq, Quote.char] at hopen
    · have hk' : l.kind = .quoted q := by
        have := congrArg Prod.fst hm
        simp only [quotedFrom] at this
        split at this
        · exact this.symm
        · exact absurd this.symm hk
      rw [hk'] at hm ⊢
      exact quotedFrom_append r' hm
  by_cases h₁ : c = '!'
  · subst h₁
    by_cases hk : l.kind = .delim
    · rw [hk, munch_loneBang] at hm ⊢
      refine ⟨hm.1, hbang (by simp [isLoneBang, hk, ht]), ?_⟩
      rw [← hr.startsImportant]
      exact hm.2.2
    · have hk' : l.kind = .important := by
        have := congrArg Prod.fst hm
        rw [munch_bang_eq] at this
        split at this
        · exact this.symm
        · exact absurd this.symm hk
      rw [hk'] at hm ⊢
      exact munch_important r' hm
  by_cases h₂ : c = '"'
  · subst h₂
    exact hquoted .double rfl hm
  by_cases h₃ : c = '\''
  · subst h₃
    exact hquoted .single rfl hm
  rw [← munch_alike (hr.append_left cs) h₁ h₂ h₃]
  exact hm

end Lexeme.Stops
end TieredStyle.Css
