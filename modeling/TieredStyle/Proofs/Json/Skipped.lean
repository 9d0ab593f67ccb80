import TieredStyle.Proofs.Json.Chars

/-!
# Values that are skipped

A value is skipped in front of everything that cannot make it longer: the text up to its end is all that counts.
-/
namespace TieredStyle.Json

section

variable {c close : Char} {w cs rest used : List Char}

/-! ## The functions that skip -/

/-- One thing is skipped, and then another. -/
def andThen? (skip₁ skip₂ : List Char → Option (List Char)) (cs : List Char) : Option (List Char) :=
  (skip₁ cs).bind skip₂

/-- The text behind a word. -/
def word? (word cs : List Char) : Option (List Char) := (skipWord word cs).map Subtype.val

/-- The text behind a value. -/
def skip? (cs : List Char) : Option (List Char) := (skipValue cs).map Subtype.val

/-- The text behind a string. -/
def string? : List Char → Option (List Char) := andThen? (mark? '"') chars?

/-- The text behind a colon and a value. -/
def field? : List Char → Option (List Char) := andThen? (mark? ':') skip?

/-- The text behind what stands between brackets, which is not nothing. -/
def series? (close : Char) (cs : List Char) : Option (List Char) := (skipSeries close cs).map Subtype.val

/-- The text behind what may follow a value between brackets. -/
def tail? (close : Char) (cs : List Char) : Option (List Char) :=
  match mark? close cs with
  | some rest => some rest
  | none => (mark? ',' cs).bind (series? close)

/-- The text behind what stands between brackets. -/
def interior? (close : Char) (cs : List Char) : Option (List Char) :=
  match mark? close cs with
  | some rest => some rest
  | none => series? close cs

theorem map_skipKey (cs : List Char) : (skipKey cs).map Subtype.val = (string? cs).bind (mark? ':') := by
  unfold skipKey string? andThen? mark?
  cases takeMark '"' cs with
  | none => rfl
  | some r₀ =>
      cases h₁ : skipChars r₀.1 with
      | none => simp [chars?, h₁]
      | some r₁ => cases h₂ : takeMark ':' r₁.1 <;> simp [chars?, h₁, h₂]

theorem map_val_bind {p q : List Char → Prop} (o : Option (Subtype p)) (f : Subtype p → Option (Subtype q))
    (skip : List Char → Option (List Char)) (h : ∀ r, (f r).map Subtype.val = skip r.1) :
    (o.bind f).map Subtype.val = (o.map Subtype.val).bind skip := by
  cases o with
  | none => rfl
  | some r => exact h r

theorem series?_eq (close : Char) (cs : List Char) : series? close cs =
    (if close = '\x7d' then (string? cs).bind (mark? ':') else some cs).bind (andThen? skip? (tail? close)) := by
  rw [series?, skipSeries]
  refine (map_val_bind _ _ (andThen? skip? (tail? close)) fun r₀ =>
    map_val_bind (skipValue r₀.1) _ (tail? close) fun r₁ => ?_).trans ?_
  · obtain ⟨rest₁, h₁⟩ := r₁
    unfold tail? mark? series?
    dsimp only
    cases takeMark close rest₁ with
    | some r₂ => rfl
    | none =>
        simp only [Option.map_none]
        cases takeMark ',' rest₁ with
        | none => rfl
        | some r₂ => cases h : skipSeries close r₂.1 <;> simp [h]
  · rw [← map_skipKey]
    congr 1
    split
    · simp only [Option.map_map, Function.comp_def]
    · rfl

theorem series?_bracket : series? ']' = andThen? skip? (tail? ']') := by
  funext cs
  rw [series?_eq, if_neg (by decide), Option.bind_some]

theorem series?_brace : series? '\x7d' = andThen? string? (andThen? field? (tail? '\x7d')) := by
  funext cs
  rw [series?_eq, if_pos rfl, Option.bind_assoc]
  unfold field?
  unfold andThen?
  simp only [Option.bind_assoc]

theorem map_skipBracketed {n : Nat} (close : Char) (cs : List Char) (h : cs.length + 1 ≤ n) :
    (skipBracketed close cs h).map Subtype.val = interior? close cs := by
  unfold skipBracketed interior? mark? series?
  cases takeMark close cs with
  | some r => rfl
  | none => cases skipSeries close cs <;> rfl

theorem skip?_eq (cs : List Char) : skip? cs = match skipBlanks cs with
    | [] => none
    | c :: rest =>
      if c = '[' then interior? ']' rest
      else if c = '\x7b' then interior? '\x7d' rest
      else if c = '"' then chars? rest
      else if c = 'n' then word? "ull".toList rest
      else if c = 't' then word? "rue".toList rest
      else if c = 'f' then word? "alse".toList rest
      else (numeral? (c :: rest)).map Prod.snd := by
  rw [skip?, skipValue]
  split
  next h => simp only [h, Option.map_none]
  next c rest h =>
    simp only [h]
    split
    · exact map_skipBracketed ..
    split
    · exact map_skipBracketed ..
    split
    · simp only [Option.map_map, Function.comp_def, chars?]
    split
    · simp only [Option.map_map, Function.comp_def, word?]
    split
    · simp only [Option.map_map, Function.comp_def, word?]
    split
    · simp only [Option.map_map, Function.comp_def, word?]
    · simp only [Option.map_map, Function.comp_def, numeral?, pair]

theorem skip?_cons (hw : Blanks w) (hc : isBlank c = false) (rest : List Char) : skip? (w ++ c :: rest) =
      if c = '[' then interior? ']' rest
      else if c = '\x7b' then interior? '\x7d' rest
      else if c = '"' then chars? rest
      else if c = 'n' then word? "ull".toList rest
      else if c = 't' then word? "rue".toList rest
      else if c = 'f' then word? "alse".toList rest
      else (numeral? (c :: rest)).map Prod.snd := by
  rw [skip?_eq, skipBlanks_append hw, skipBlanks_cons hc]

theorem skip?_bracket (hw : Blanks w) (rest : List Char) : skip? (w ++ '[' :: rest) = interior? ']' rest :=
  skip?_cons hw (by decide) rest

theorem skip?_brace (hw : Blanks w) (rest : List Char) :
    skip? (w ++ '\x7b' :: rest) = interior? '\x7d' rest :=
  skip?_cons hw (by decide) rest

theorem skip?_quote (hw : Blanks w) (rest : List Char) : skip? (w ++ '"' :: rest) = chars? rest :=
  skip?_cons hw (by decide) rest

theorem skip?_null (hw : Blanks w) (rest : List Char) : skip? (w ++ 'n' :: rest) = word? "ull".toList rest :=
  skip?_cons hw (by decide) rest

theorem skip?_true (hw : Blanks w) (rest : List Char) : skip? (w ++ 't' :: rest) = word? "rue".toList rest :=
  skip?_cons hw (by decide) rest

theorem skip?_false (hw : Blanks w) (rest : List Char) : skip? (w ++ 'f' :: rest) = word? "alse".toList rest :=
  skip?_cons hw (by decide) rest

theorem skip?_numeral (hw : Blanks w) (hc : BeginsNumeral c) (rest : List Char) :
    skip? (w ++ c :: rest) = (numeral? (c :: rest)).map Prod.snd := by
  rw [skip?_cons hw hc.not_blank, if_neg (hc.ne (by decide)), if_neg (hc.ne (by decide)),
    if_neg (hc.ne (by decide)), if_neg (hc.ne (by decide)), if_neg (hc.ne (by decide)),
    if_neg (hc.ne (by decide))]

theorem skip?_blanks (hw : Blanks w) : skip? w = none := by
  rw [skip?_eq, skipBlanks_eq_nil hw]

theorem word?_append (word rest : List Char) : word? word (word ++ rest) = some rest := by
  have hword : word.isPrefixOf (word ++ rest) = true := List.isPrefixOf_iff_prefix.2 (List.prefix_append ..)
  simp [word?, skipWord, hword]

theorem eq_append_of_word? {word : List Char} (h : word? word cs = some rest) : cs = word ++ rest := by
  unfold word? skipWord at h
  split at h
  next hword =>
    obtain ⟨more, rfl⟩ := List.isPrefixOf_iff_prefix.1 hword
    have h : (word ++ more).drop word.length = rest := Option.some.inj h
    rw [← h, List.drop_left]
  next => cases h

/-! ## What stands where something ends -/

theorem endsNumeral_of_isBlank (h : isBlank c = true) : EndsNumeral c := by
  simp only [isBlank, Bool.or_eq_true, decide_eq_true_eq] at h
  obtain ((rfl | rfl) | rfl) | rfl := h <;> exact ⟨by decide, by decide, by decide⟩

theorem goes_of_mark? (h : mark? c cs = some rest) (hc : EndsNumeral c) : Goes EndsNumeral cs := by
  obtain ⟨-, w, hw, rfl⟩ := exists_of_mark? h
  cases w with
  | nil => exact goes_cons.2 hc
  | cons d w => exact goes_cons.2 (endsNumeral_of_isBlank (hw d List.mem_cons_self))

theorem goes_of_tail? (hclose : EndsNumeral close) (h : tail? close cs = some rest) :
    Goes EndsNumeral cs := by
  unfold tail? at h
  split at h
  next hmark => exact goes_of_mark? hmark hclose
  next =>
    obtain ⟨_, hmark, -⟩ := Option.bind_eq_some_iff.1 h
    exact goes_of_mark? hmark ⟨by decide, by decide, by decide⟩

/-! ## Skipping hangs on what is skipped -/

/-- What is taken is so in front of all that ends a number. -/
def Cuts (skip : List Char → Option (List Char)) (used : List Char) : Prop :=
  ∀ rest, Goes EndsNumeral rest → skip (used ++ rest) = some rest

/-- What is skipped here is so elsewhere. -/
def CutsAt (skip : List Char → Option (List Char)) (cs : List Char) : Prop :=
  ∀ rest, skip cs = some rest → ∃ used, cs = used ++ rest ∧ Cuts skip used

section

variable {skip₁ skip₂ : List Char → Option (List Char)}

/-- One thing and then another. -/
theorem CutsAt.bind (h₁ : CutsAt skip₁ cs) (h₂ : ∀ rest, skip₁ cs = some rest → CutsAt skip₂ rest)
    (hgoes : ∀ cs rest, skip₂ cs = some rest → Goes EndsNumeral cs) :
    CutsAt (andThen? skip₁ skip₂) cs := by
  intro rest h
  obtain ⟨rest₁, hrest₁, hrest⟩ := Option.bind_eq_some_iff.1 h
  obtain ⟨used₁, rfl, hused₁⟩ := h₁ rest₁ hrest₁
  obtain ⟨used₂, rfl, hused₂⟩ := h₂ rest₁ hrest₁ rest hrest
  refine ⟨used₁ ++ used₂, (List.append_assoc ..).symm, fun rest' hrest' => ?_⟩
  have hused₂ := hused₂ rest' hrest'
  rw [List.append_assoc, andThen?, hused₁ _ (hgoes _ _ hused₂), Option.bind_some, hused₂]

/-- Something behind a beginning that is always the same. -/
theorem CutsAt.behind (h : CutsAt skip₂ cs) (w : List Char) (heq : ∀ cs, skip₁ (w ++ cs) = skip₂ cs) :
    CutsAt skip₁ (w ++ cs) := by
  intro rest hrest
  obtain ⟨used, rfl, hused⟩ := h rest (heq cs ▸ hrest)
  exact ⟨w ++ used, (List.append_assoc ..).symm, fun rest' hrest' => by
    rw [List.append_assoc, heq, hused rest' hrest']⟩

theorem cutsAt_chars? (cs : List Char) : CutsAt chars? cs := by
  intro rest h
  obtain ⟨used, hused, rfl⟩ := exists_of_chars? h
  exact ⟨used, rfl, fun rest' _ => hused.skipped rest'⟩

/-- What stands behind a mark. -/
theorem CutsAt.marked (h : ∀ w rest, cs = w ++ c :: rest → CutsAt skip₂ rest) :
    CutsAt (andThen? (mark? c) skip₂) cs := by
  intro rest hrest
  obtain ⟨rest₁, hrest₁, -⟩ := Option.bind_eq_some_iff.1 hrest
  obtain ⟨hc, w, hw, rfl⟩ := exists_of_mark? hrest₁
  have hbehind : CutsAt (andThen? (mark? c) skip₂) ((w ++ [c]) ++ rest₁) := by
    refine (h w rest₁ rfl).behind (w ++ [c]) fun cs => ?_
    rw [List.append_assoc, List.singleton_append, andThen?, mark?_self hw hc, Option.bind_some]
  rw [List.append_assoc] at hbehind
  exact hbehind rest hrest

theorem cutsAt_string? (cs : List Char) : CutsAt string? cs := CutsAt.marked fun _ rest _ => cutsAt_chars? rest

end

/-! ## Values -/

/-- A bracket or a brace that closes. -/
def IsClose (close : Char) : Prop := close = ']' ∨ close = '\x7d'

theorem IsClose.endsNumeral (h : IsClose close) : EndsNumeral close := by
  obtain rfl | rfl := h <;> exact ⟨by decide, by decide, by decide⟩

theorem IsClose.not_blank (h : IsClose close) : isBlank close = false := by
  obtain rfl | rfl := h <;> decide

theorem IsClose.ne_comma (h : IsClose close) : ',' ≠ close := by
  obtain rfl | rfl := h <;> decide

/-- No value begins with what closes an array. -/
theorem mark?_of_skip? (h : skip? cs = some rest) : mark? ']' cs = none := by
  cases hmark : mark? ']' cs with
  | none => rfl
  | some rest₁ =>
      obtain ⟨-, w, hw, rfl⟩ := exists_of_mark? hmark
      rw [skip?_cons hw (by decide)] at h
      cases h

theorem mark?_of_series? (hclose : IsClose close) (h : series? close cs = some rest) : mark? close cs = none := by
  obtain rfl | rfl := hclose
  · rw [series?_bracket] at h
    obtain ⟨rest₁, hrest₁, -⟩ := Option.bind_eq_some_iff.1 h
    exact mark?_of_skip? hrest₁
  · rw [series?_brace] at h
    obtain ⟨rest₁, hrest₁, -⟩ := Option.bind_eq_some_iff.1 h
    obtain ⟨rest₂, hrest₂, -⟩ := Option.bind_eq_some_iff.1 hrest₁
    obtain ⟨-, w, hw, rfl⟩ := exists_of_mark? hrest₂
    exact mark?_of_ne hw (by decide) (by decide) rest₂

theorem interior?_of_series? (hclose : IsClose close) (h : series? close cs = some rest) :
    interior? close cs = some rest := by
  rw [interior?, mark?_of_series? hclose h, h]

theorem interior?_self (hclose : IsClose close) (hw : Blanks w) (rest : List Char) :
    interior? close (w ++ close :: rest) = some rest := by
  rw [interior?, mark?_self hw hclose.not_blank]

theorem tail?_self (hclose : IsClose close) (hw : Blanks w) (rest : List Char) :
    tail? close (w ++ close :: rest) = some rest := by
  rw [tail?, mark?_self hw hclose.not_blank]

theorem tail?_comma (hclose : IsClose close) (hw : Blanks w) (rest : List Char) :
    tail? close (w ++ ',' :: rest) = series? close rest := by
  rw [tail?, mark?_of_ne hw (by decide) hclose.ne_comma, mark?_self hw (by decide), Option.bind_some]

theorem cutsAt_interior? (hclose : IsClose close) (h : CutsAt (series? close) cs) :
    CutsAt (interior? close) cs := by
  intro rest hrest
  unfold interior? at hrest
  split at hrest
  next rest₁ hmark =>
    cases hrest
    obtain ⟨-, w, hw, rfl⟩ := exists_of_mark? hmark
    exact ⟨w ++ [close], by simp, fun rest' _ => by simpa using interior?_self hclose hw rest'⟩
  next =>
    obtain ⟨used, rfl, hused⟩ := h rest hrest
    exact ⟨used, rfl, fun rest' hrest' => interior?_of_series? hclose (hused rest' hrest')⟩

theorem cutsAt_tail? (hclose : IsClose close) (h : ∀ w rest, cs = w ++ ',' :: rest → CutsAt (series? close) rest) :
    CutsAt (tail? close) cs := by
  intro rest hrest
  unfold tail? at hrest
  split at hrest
  next rest₁ hmark =>
    cases hrest
    obtain ⟨-, w, hw, rfl⟩ := exists_of_mark? hmark
    exact ⟨w ++ [close], by simp, fun rest' _ => by simpa using tail?_self hclose hw rest'⟩
  next =>
    obtain ⟨rest₁, hmark, hseries⟩ := Option.bind_eq_some_iff.1 hrest
    obtain ⟨-, w, hw, rfl⟩ := exists_of_mark? hmark
    obtain ⟨used, rfl, hused⟩ := h w rest₁ rfl rest hseries
    refine ⟨w ++ ',' :: used, by simp, fun rest' hrest' => ?_⟩
    rw [List.append_assoc, List.cons_append, tail?_comma hclose hw, hused rest' hrest']

theorem goes_of_field? (h : field? cs = some rest) : Goes EndsNumeral cs := by
  obtain ⟨_, hmark, -⟩ := Option.bind_eq_some_iff.1 h
  exact goes_of_mark? hmark ⟨by decide, by decide, by decide⟩

theorem goes_of_field?_tail? (h : andThen? field? (tail? close) cs = some rest) : Goes EndsNumeral cs := by
  obtain ⟨_, hfield, -⟩ := Option.bind_eq_some_iff.1 h
  exact goes_of_field? hfield

theorem CutsAt.length_le {skip : List Char → Option (List Char)} (h : CutsAt skip cs)
    (hrest : skip cs = some rest) : rest.length ≤ cs.length := by
  obtain ⟨used, rfl, -⟩ := h rest hrest
  simp

/-- A series, if the values in it are skipped so. -/
theorem cutsAt_series? (hclose : IsClose close) {n : Nat} (h : ∀ cs : List Char, cs.length ≤ n → CutsAt skip? cs)
    (hn : cs.length ≤ n) : CutsAt (series? close) cs := by
  induction hm : cs.length using Nat.strong_induction_on generalizing cs with
  | _ m ih =>
    subst hm
    have htail (rest : List Char) (hle : rest.length ≤ cs.length) : CutsAt (tail? close) rest := by
      refine cutsAt_tail? hclose fun w more hmore => ?_
      have hlt : more.length < cs.length := by simp [hmore] at hle; omega
      exact ih more.length hlt (by omega) rfl
    have hgoes : ∀ cs rest, tail? close cs = some rest → Goes EndsNumeral cs :=
      fun _ _ => goes_of_tail? hclose.endsNumeral
    obtain rfl | rfl := hclose
    · rw [series?_bracket]
      exact (h cs hn).bind (fun rest hrest => htail rest ((h cs hn).length_le hrest)) hgoes
    · rw [series?_brace]
      refine (cutsAt_string? cs).bind (fun rest hrest => ?_) fun _ _ => goes_of_field?_tail?
      have hrest := (cutsAt_string? cs).length_le hrest
      have hfield : CutsAt field? rest := .marked fun w more hmore =>
        h more (by simp [hmore] at hrest; omega)
      exact hfield.bind (fun more hmore => htail more (Nat.le_trans (hfield.length_le hmore) hrest)) hgoes

theorem cutsAt_skip? (cs : List Char) : CutsAt skip? cs := by
  -- what stands between the brackets of a value is shorter than the value
  induction hn : cs.length using Nat.strong_induction_on generalizing cs with
  | _ n ih =>
    subst hn
    obtain ⟨w, hw, rfl | ⟨c, rest, hc, rfl⟩⟩ := exists_blanks cs
    · intro rest h
      rw [skip?_blanks hw] at h
      cases h
    have hinterior (close : Char) (hclose : IsClose close) : CutsAt (interior? close) rest :=
      cutsAt_interior? hclose (cutsAt_series? hclose (n := rest.length)
        (fun cs hcs => ih cs.length (by simp; omega) cs rfl) (Nat.le_refl _))
    have hword (word : List Char) : CutsAt (word? word) rest := by
      intro rest' h
      exact ⟨word, eq_append_of_word? h, fun rest' _ => word?_append word rest'⟩
    have hbehind {skip : List Char → Option (List Char)} (h : CutsAt skip rest)
        (heq : ∀ rest, skip? (w ++ c :: rest) = skip rest) : CutsAt skip? (w ++ c :: rest) := by
      have h : CutsAt skip? ((w ++ [c]) ++ rest) := h.behind (w ++ [c]) fun cs => by simpa using heq cs
      simpa using h
    by_cases hbracket : c = '['
    · subst hbracket
      exact hbehind (hinterior ']' (.inl rfl)) (skip?_bracket hw)
    by_cases hbrace : c = '\x7b'
    · subst hbrace
      exact hbehind (hinterior '\x7d' (.inr rfl)) (skip?_brace hw)
    by_cases hquote : c = '"'
    · subst hquote
      exact hbehind (cutsAt_chars? rest) (skip?_quote hw)
    by_cases hnull : c = 'n'
    · subst hnull
      exact hbehind (hword _) (skip?_null hw)
    by_cases htrue : c = 't'
    · subst htrue
      exact hbehind (hword _) (skip?_true hw)
    by_cases hfalse : c = 'f'
    · subst hfalse
      exact hbehind (hword _) (skip?_false hw)
    have hnumeral (rest : List Char) : skip? (w ++ c :: rest) = (numeral? (c :: rest)).map Prod.snd := by
      rw [skip?_cons hw hc, if_neg hbracket, if_neg hbrace, if_neg hquote, if_neg hnull, if_neg htrue,
        if_neg hfalse]
    intro rest' h
    rw [hnumeral] at h
    obtain ⟨⟨x, _⟩, hx, rfl⟩ := Option.map_eq_some_iff.1 h
    obtain ⟨used, heq, hne, hused⟩ := numeral?_append hx
    obtain ⟨d, used, rfl⟩ := List.exists_cons_of_ne_nil hne
    obtain ⟨rfl, rfl⟩ := List.cons.inj heq
    refine ⟨w ++ c :: used, by simp, fun rest' hrest' => ?_⟩
    have hused := hused rest' hrest'
    rw [List.cons_append] at hused
    rw [List.append_assoc, List.cons_append, hnumeral, hused, Option.map_some]

end

end TieredStyle.Json
