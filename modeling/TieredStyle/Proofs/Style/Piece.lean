import TieredStyle.Proofs.Style.Reader

/-!
# The piece with which a value begins

A value begins with a word, a string, a number, or a bracket. That piece alone says what is found there.
-/
namespace TieredStyle.Style
open Json

/-- A piece with which a value begins, and what is found there. A string with a surrogate that has no partner
stands for nothing, and a number can be out of range. -/
inductive Piece : List Char → Option Found → Prop
  | null : Piece ('n' :: "ull".toList) (some .null)
  | yes : Piece ('t' :: "rue".toList) (some (.boolean true))
  | no : Piece ('f' :: "alse".toList) (some (.boolean false))
  | text {used : List Char} {letters : Option (List Char)} : Chars used →
      (∀ rest, letters? (used ++ rest) = letters.map fun xs => (xs, rest)) →
      Piece ('"' :: used) (letters.map fun xs => .text (String.ofList xs))
  | sequence : Piece ['['] (some .sequence)
  | map : Piece ['\x7b'] (some .map)
  | number {tok : List Char} {x : Numeral} : numeral? tok = some (x, []) → Piece tok (x.value?.map .number)

/-- Whether a piece is JSON but stands for no value. -/
def NoValue (tok : List Char) : Prop := Piece tok none

section

variable {tok w rest cs : List Char} {f : Option Found} {c d : Char}

theorem found?_cons (hw : Blanks w) (hc : isBlank c = false) (rest : List Char) : found? (w ++ c :: rest) =
      if c = 'n' then (word? "ull".toList rest).map fun _ => .null
      else if c = 't' then (word? "rue".toList rest).map fun _ => .boolean true
      else if c = 'f' then (word? "alse".toList rest).map fun _ => .boolean false
      else if c = '"' then (letters? rest).map fun p => .text (String.ofList p.1)
      else if c = '[' then some .sequence
      else if c = '\x7b' then some .map
      else (numeral? (c :: rest)).bind fun p => p.1.value?.map .number := by
  rw [found?, skipBlanks_append hw, skipBlanks_cons hc]
  simp only [word?, letters?, numeral?, takeText, Option.map_map, Function.comp_def, Parsed.map, pair,
    Option.bind_map]

theorem found?_quote (hw : Blanks w) (rest : List Char) :
    found? (w ++ '"' :: rest) = (letters? rest).map fun p => .text (String.ofList p.1) :=
  found?_cons hw (by decide) rest

theorem found?_numeral (hw : Blanks w) (hc : BeginsNumeral c) (rest : List Char) :
    found? (w ++ c :: rest) = (numeral? (c :: rest)).bind fun p => p.1.value?.map .number := by
  rw [found?_cons hw hc.not_blank, if_neg (hc.ne (by decide)), if_neg (hc.ne (by decide)),
    if_neg (hc.ne (by decide)), if_neg (hc.ne (by decide)), if_neg (hc.ne (by decide)),
    if_neg (hc.ne (by decide))]

theorem found?_blanks (hw : Blanks w) : found? w = none := by
  rw [found?, skipBlanks_eq_nil hw]

theorem Piece.head (h : Piece tok f) : ∃ c more, tok = c :: more ∧ isBlank c = false := by
  cases h with
  | number hx =>
      obtain ⟨c, more, rfl, hc⟩ := exists_of_numeral? hx
      exact ⟨c, more, rfl, hc.not_blank⟩
  | _ => exact ⟨_, _, rfl, by decide⟩

/-- What is found at a piece. -/
theorem Piece.found (h : Piece tok f) (hw : Blanks w) (hstops : Stops tok rest) :
    found? (w ++ (tok ++ rest)) = f := by
  cases h with
  | null => rw [List.cons_append, found?_cons hw (by decide), if_pos rfl, word?_append, Option.map_some]
  | yes =>
      rw [List.cons_append, found?_cons hw (by decide), if_neg (by decide), if_pos rfl, word?_append,
        Option.map_some]
  | no =>
      rw [List.cons_append, found?_cons hw (by decide), if_neg (by decide), if_neg (by decide), if_pos rfl,
        word?_append, Option.map_some]
  | text hused hletters =>
      rw [List.cons_append, found?_quote hw, hletters, Option.map_map]
      rfl
  | sequence => exact found?_cons hw (by decide) rest
  | map => exact found?_cons hw (by decide) rest
  | @number tok x hx =>
      obtain ⟨c, more, rfl, hc⟩ := exists_of_numeral? hx
      have hnumeral := hstops x hx
      rw [List.cons_append] at hnumeral ⊢
      rw [found?_numeral hw hc, hnumeral, Option.bind_some]

/-- Something can stand behind a piece that makes it a value to skip. -/
theorem Piece.viable (h : Piece tok f) (hw : Blanks w) : ∃ more, ∀ rest, Goes EndsNumeral rest →
    Stops tok (more ++ rest) ∧ skip? (w ++ (tok ++ (more ++ rest))) = some rest := by
  cases h with
  | null =>
      refine ⟨[], fun rest _ => ⟨stops_of_ne (by decide) _ _, ?_⟩⟩
      rw [List.nil_append, List.cons_append, skip?_null hw, word?_append]
  | yes =>
      refine ⟨[], fun rest _ => ⟨stops_of_ne (by decide) _ _, ?_⟩⟩
      rw [List.nil_append, List.cons_append, skip?_true hw, word?_append]
  | no =>
      refine ⟨[], fun rest _ => ⟨stops_of_ne (by decide) _ _, ?_⟩⟩
      rw [List.nil_append, List.cons_append, skip?_false hw, word?_append]
  | text hused _ =>
      refine ⟨[], fun rest _ => ⟨stops_of_ne (by decide) _ _, ?_⟩⟩
      rw [List.nil_append, List.cons_append, skip?_quote hw, hused.skipped]
  | sequence =>
      refine ⟨[']'], fun rest _ => ⟨stops_of_ne (by decide) _ _, ?_⟩⟩
      exact (skip?_bracket hw _).trans (interior?_self (.inl rfl) (List.forall_mem_nil _) rest)
  | map =>
      refine ⟨['\x7d'], fun rest _ => ⟨stops_of_ne (by decide) _ _, ?_⟩⟩
      exact (skip?_brace hw _).trans (interior?_self (.inr rfl) (List.forall_mem_nil _) rest)
  | @number tok x hx =>
      refine ⟨[], fun rest hrest => ⟨stops_of_goes hrest, ?_⟩⟩
      have hnumeral := stops_of_goes hrest x hx
      obtain ⟨c, more, rfl, hc⟩ := exists_of_numeral? hx
      rw [List.cons_append] at hnumeral
      rw [List.nil_append, List.cons_append, skip?_numeral hw hc, hnumeral, Option.map_some]

/-- A text begins with a piece, or there is no value in front of it. -/
theorem piece_cases (cs : List Char) :
    (∃ w tok f rest, Blanks w ∧ Piece tok f ∧ Stops tok rest ∧ cs = w ++ (tok ++ rest)) ∨
      (found? cs = none ∧ skip? cs = none) := by
  obtain ⟨w, hw, rfl | ⟨c, rest, hc, rfl⟩⟩ := exists_blanks cs
  · exact .inr ⟨found?_blanks hw, skip?_blanks hw⟩
  have hword {word : List Char} {f : Found} (hpiece : Piece (c :: word) (some f)) (hnumeral : ¬BeginsNumeral c)
      (hfound : found? (w ++ c :: rest) = (word? word rest).map fun _ => f)
      (hskip : skip? (w ++ c :: rest) = word? word rest) :
      (∃ w' tok f rest', Blanks w' ∧ Piece tok f ∧ Stops tok rest' ∧ w ++ c :: rest = w' ++ (tok ++ rest')) ∨
        (found? (w ++ c :: rest) = none ∧ skip? (w ++ c :: rest) = none) := by
    cases h : word? word rest with
    | none => exact .inr ⟨by rw [hfound, h, Option.map_none], by rw [hskip, h]⟩
    | some rest' =>
        obtain rfl := eq_append_of_word? h
        exact .inl ⟨w, _, _, rest', hw, hpiece, stops_of_ne hnumeral _ _, rfl⟩
  by_cases hnull : c = 'n'
  · subst hnull
    exact hword .null (by decide) (found?_cons hw hc rest) (skip?_null hw rest)
  by_cases htrue : c = 't'
  · subst htrue
    exact hword .yes (by decide) (found?_cons hw hc rest) (skip?_true hw rest)
  by_cases hfalse : c = 'f'
  · subst hfalse
    exact hword .no (by decide) (found?_cons hw hc rest) (skip?_false hw rest)
  by_cases hquote : c = '"'
  · subst hquote
    cases h : chars? rest with
    | none =>
        have hletters : letters? rest = none := by
          cases hletters : letters? rest with
          | none => rfl
          | some p => cases (chars?_of_letters? hletters).symm.trans h
        exact .inr ⟨by rw [found?_quote hw, hletters, Option.map_none], by rw [skip?_quote hw, h]⟩
    | some rest' =>
        obtain ⟨used, hused, rfl⟩ := exists_of_chars? h
        obtain ⟨letters, hletters⟩ := hused.read
        exact .inl ⟨w, _, _, rest', hw, .text hused hletters, stops_of_ne (by decide) _ _, rfl⟩
  by_cases hbracket : c = '['
  · subst hbracket
    exact .inl ⟨w, _, _, rest, hw, .sequence, stops_of_ne (by decide) _ _, rfl⟩
  by_cases hbrace : c = '\x7b'
  · subst hbrace
    exact .inl ⟨w, _, _, rest, hw, .map, stops_of_ne (by decide) _ _, rfl⟩
  have hfound : found? (w ++ c :: rest) = (numeral? (c :: rest)).bind fun p => p.1.value?.map .number := by
    rw [found?_cons hw hc, if_neg hnull, if_neg htrue, if_neg hfalse, if_neg hquote, if_neg hbracket, if_neg hbrace]
  have hskip : skip? (w ++ c :: rest) = (numeral? (c :: rest)).map Prod.snd := by
    rw [skip?_cons hw hc, if_neg hbracket, if_neg hbrace, if_neg hquote, if_neg hnull, if_neg htrue, if_neg hfalse]
  cases h : numeral? (c :: rest) with
  | none => exact .inr ⟨by rw [hfound, h, Option.bind_none], by rw [hskip, h, Option.map_none]⟩
  | some p =>
      obtain ⟨x, rest'⟩ := p
      obtain ⟨tok, htok, hx, hstops⟩ := exists_stops h
      exact .inl ⟨w, tok, _, rest', hw, .number hx, hstops, by rw [htok]⟩

/-! ## Values -/

variable {α : Type} {r : Reader α} {K : List Char → List Char → Prop} {e : ReadError}

/-- A piece that is refused where a value is asked for. -/
theorem Piece.refused (h : Piece tok f) (hw : Blanks w) (hstops : Stops tok rest)
    (hsettled : ∀ rest, Stops tok rest → r (w ++ (tok ++ rest)) = .error e)
    (hbegins : ∃ more a, Reads r skip? (w ++ more) a) (he : e = .notJson → f = none)
    (hK : ∀ tok more, NoValue tok → K tok more) : Outcome r skip? K (w ++ (tok ++ rest)) := by
  obtain ⟨more, a, hmore⟩ := hbegins
  refine .fault (e := e) rfl hstops ⟨h.head, ⟨more, a, hmore, fun hnot => hK tok more ?_⟩, hsettled, h.viable hw⟩
  rw [he hnot] at h
  exact h

/-- A value that begins with one of certain characters; everything else is refused for what is found there. -/
theorem Agrees.ofPiece (wanted : Wanted) (accepted : Char → Prop)
    (hblank : ∀ w, Blanks w → r w = .error (mismatch wanted w))
    (hrefuse : ∀ w c cs, Blanks w → isBlank c = false → ¬accepted c →
      r (w ++ c :: cs) = .error (mismatch wanted (w ++ c :: cs)))
    (haccept : ∀ w c cs, Blanks w → isBlank c = false → accepted c → Outcome r skip? K (w ++ c :: cs))
    (hbegins : ∀ w, Blanks w → ∃ more a, Reads r skip? (w ++ more) a)
    (hK : ∀ tok more, NoValue tok → K tok more) : Agrees r skip? K := by
  refine ⟨fun cs => ?_, hbegins [] (List.forall_mem_nil _)⟩
  obtain ⟨w, tok, f, rest, hw, hpiece, hstops, rfl⟩ | ⟨hfound, hskip⟩ := piece_cases cs
  · obtain ⟨c, more, rfl, hc⟩ := hpiece.head
    by_cases hcs : accepted c
    · exact haccept w c (more ++ rest) hw hc hcs
    · refine hpiece.refused hw hstops (e := mismatch wanted (w ++ (c :: more ++ rest)))
        (fun rest' hstops' => ?_) (hbegins w hw) (fun hnot => ?_) hK
      · rw [List.cons_append, List.cons_append, hrefuse w c (more ++ rest') hw hc hcs, mismatch, mismatch,
          ← List.cons_append, ← List.cons_append, hpiece.found hw hstops, hpiece.found hw hstops']
      · rw [mismatch, hpiece.found hw hstops] at hnot
        cases f with
        | none => rfl
        | some f => cases hnot
  · obtain ⟨w, hw, rfl | ⟨c, rest, hc, rfl⟩⟩ := exists_blanks cs
    · exact .broken (by rw [hblank _ hw, mismatch, hfound]) hskip
    · by_cases hcs : accepted c
      · exact haccept w c rest hw hc hcs
      · exact .broken (by rw [hrefuse w c rest hw hc hcs, mismatch, hfound]) hskip

end

end TieredStyle.Style
