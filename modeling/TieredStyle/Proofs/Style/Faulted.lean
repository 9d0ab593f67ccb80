import TieredStyle.Proofs.Style.Elements

/-!
# Which texts are said to be no JSON

A style is read in one pass, so the first thing that is wrong counts, whether it is one of the text or one of what
the text says. A text that is no JSON is said to be something else exactly if a piece in front of its end settles
that. A text that is JSON is said to be none at a value that cannot be read, and at an element too many.
-/
namespace TieredStyle.Style
open Json

/-! ## Styles -/

variable {w : List Char}

theorem plain_takeStyle (cs : List Char) : plain takeStyle cs = match mark? '\x7b' cs with
    | some rest => plain takeStyleObject rest
    | none => match mark? '[' cs with
      | some rest => plain takeStyleArray rest
      | none => .error (mismatch .style cs) := by
  rw [plain, takeStyle, mark?, mark?]
  cases takeMark '\x7b' cs with
  | some p =>
      simp only [Option.map_some, plain]
      cases takeStyleObject p.1 <;> rfl
  | none =>
      cases takeMark '[' cs with
      | none => rfl
      | some p =>
          simp only [Option.map_none, Option.map_some, plain]
          cases takeStyleArray p.1 <;> rfl

theorem plain_takeStyle_brace (hw : Blanks w) (rest : List Char) :
    plain takeStyle (w ++ '\x7b' :: rest) = plain takeStyleObject rest := by
  rw [plain_takeStyle, mark?_self hw (by decide)]

theorem plain_takeStyle_bracket (hw : Blanks w) (rest : List Char) :
    plain takeStyle (w ++ '[' :: rest) = plain takeStyleArray rest := by
  rw [plain_takeStyle, mark?_of_ne hw (by decide) (by decide), mark?_self hw (by decide)]

theorem agrees_style : Agrees (plain takeStyle) skip? Withheld := by
  refine .ofPiece .style (fun c => c = '\x7b' ∨ c = '[') (fun w hw => ?_)
    (fun w c cs hw hc hne => ?_) (fun w c cs hw _ hc => ?_) (fun w hw => ?_) fun _ _ h => .inl h
  · rw [plain_takeStyle, mark?_blanks hw, mark?_blanks hw]
  · obtain ⟨hbrace, hbracket⟩ := not_or.1 hne
    rw [plain_takeStyle, mark?_of_ne hw hc hbrace, mark?_of_ne hw hc hbracket]
  · obtain rfl | rfl := hc
    · exact ((agrees_object.outcome cs).mono fun _ _ h => .inl h).behind_mark (plain_takeStyle_brace hw)
        (skip?_brace hw)
    · exact (agrees_array.outcome cs).behind_mark (plain_takeStyle_bracket hw) (skip?_bracket hw)
  · obtain ⟨used, style, hused⟩ := agrees_object.reads
    exact ⟨_, style, hused.behind_mark (plain_takeStyle_brace hw) (skip?_brace hw)⟩

/-! ## Texts -/

theorem ofJson_eq (s : String) : ofJson s = (plain takeStyle s.toList).bind fun p =>
    if (skipBlanks p.2).isEmpty then .ok p.1 else .error .notJson := by
  rw [ofJson, plain]
  cases takeStyle s.toList <;> rfl

theorem wellFormed_eq (s : String) :
    wellFormed s = match skip? s.toList with
      | some rest => (skipBlanks rest).isEmpty
      | none => false := by
  rw [wellFormed, skip?]
  cases skipValue s.toList <;> rfl

/-- A piece of a text that settles what is wrong with it: the text in front of the piece could become the text of
a style, whatever follows the piece the fault is the same, and something could follow it that makes the text
JSON. -/
structure FaultAt (s : String) (pre tok rest : List Char) (e : ReadError) : Prop where
  toList_eq : s.toList = pre ++ (tok ++ rest)
  stops : Stops tok rest
  begins : ∃ more style, ofJson (String.ofList (pre ++ more)) = .ok style
  settled : ∀ more, Stops tok more → ofJson (String.ofList (pre ++ (tok ++ more))) = .error e
  viable : ∃ more, Stops tok more ∧ wellFormed (String.ofList (pre ++ (tok ++ more))) = true

variable {s : String} {pre tok rest : List Char} {e e' : ReadError}

theorem FaultAt.ofJson (h : FaultAt s pre tok rest e) : ofJson s = .error e := by
  rw [← h.settled rest h.stops, ← h.toList_eq, String.ofList_toList]

theorem ofJson_of_reads {used : List Char} {style : Style} (h : Reads (plain takeStyle) skip? used style) :
    ofJson (String.ofList used) = .ok style := by
  have hread := (h [] goes_nil).1
  rw [List.append_nil] at hread
  rw [ofJson_eq, String.toList_ofList, hread]
  rfl

theorem Fault.faultAt {K : List Char → List Char → Prop} (h : Fault (plain takeStyle) skip? K pre tok e)
    (hs : s.toList = pre ++ (tok ++ rest)) (hstops : Stops tok rest) : FaultAt s pre tok rest e where
  toList_eq := hs
  stops := hstops
  begins := by
    obtain ⟨more, style, hmore, -⟩ := h.begins
    exact ⟨more, style, ofJson_of_reads hmore⟩
  settled more hmore := by
    rw [ofJson_eq, String.toList_ofList, h.settled more hmore]
    rfl
  viable := by
    obtain ⟨more, hmore⟩ := h.viable
    obtain ⟨hstops, hskip⟩ := hmore [] goes_nil
    rw [List.append_nil] at hstops hskip
    refine ⟨more, hstops, ?_⟩
    rw [wellFormed_eq, String.toList_ofList, hskip]
    rfl

theorem FaultAt.eq (h : FaultAt s pre tok rest e) (h' : Style.ofJson s = .error e') : e = e' :=
  Except.error.inj (h.ofJson.symm.trans h')

/-- Which texts are said to be no JSON. One that is none is said to be so unless a piece in it settles another
fault. One that is JSON is said to be none at a piece that stands for no value, or at a comma where a bracket would
close a style. -/
theorem ofJson_eq_notJson_iff (s : String) :
    ofJson s = .error .notJson ↔
      if wellFormed s then
        ∃ pre tok rest, FaultAt s pre tok rest .notJson ∧
          (NoValue tok ∨ tok = [','] ∧ ∃ style, ofJson (String.ofList (pre ++ [']'])) = .ok style)
      else ¬∃ pre tok rest e, e ≠ .notJson ∧ FaultAt s pre tok rest e := by
  have hno (h : ofJson s = .error .notJson) : ¬∃ pre tok rest e, e ≠ .notJson ∧ FaultAt s pre tok rest e :=
    fun ⟨_, _, _, _, hne, hfault⟩ => hne (hfault.eq h)
  cases agrees_style.outcome s.toList with
  | @read style used rest hcs hreads hread hskip =>
      have hwell : wellFormed s = (skipBlanks rest).isEmpty := by rw [wellFormed_eq, hskip]
      have hof : ofJson s = if wellFormed s then .ok style else .error .notJson := by
        rw [ofJson_eq, hread, hwell]
        rfl
      split
      next h =>
        rw [if_pos h] at hof
        refine iff_of_false (fun hnot => nomatch hof.symm.trans hnot) ?_
        rintro ⟨pre, tok, rest, hfault, -⟩
        exact nomatch hof.symm.trans hfault.ofJson
      next h =>
        rw [if_neg h] at hof
        exact iff_of_true hof (hno hof)
  | @fault pre tok rest e hcs hstops hfault =>
      have hat := hfault.faultAt hcs hstops
      split
      next =>
        refine ⟨fun hnot => ?_, fun ⟨_, _, _, hat', _⟩ => hat'.ofJson⟩
        obtain rfl := hat.eq hnot
        obtain ⟨more, style, hmore, hK⟩ := hfault.begins
        refine ⟨pre, tok, rest, hat, (hK rfl).imp_right ?_⟩
        rintro ⟨htok, rfl⟩
        exact ⟨htok, style, ofJson_of_reads hmore⟩
      next =>
        refine ⟨hno, fun hnone => ?_⟩
        by_contra hne
        exact hnone ⟨pre, tok, rest, e, fun he => hne (he ▸ hat.ofJson), hat⟩
  | broken hread hskip =>
      have hwell : ¬wellFormed s = true := by simp [wellFormed_eq, hskip]
      have hof : ofJson s = .error .notJson := by
        rw [ofJson_eq, hread]
        rfl
      rw [if_neg hwell]
      exact iff_of_true hof (hno hof)

/-- A text that is no JSON but has a number where the layers should be, and an array of five elements. -/
theorem exists_ofJson_blamed :
    (∃ s, wellFormed s = false ∧ ofJson s = .error (.wrongType (.number (.natural 1)) .map)) ∧
      ∃ s, wellFormed s = true ∧ ofJson s = .error .notJson :=
  ⟨⟨"\x7b\"contents\":1,", by decide +kernel, by decide +kernel⟩,
    ⟨"[\"\",\"\",0,\x7b\x7d,1]", by decide +kernel, by decide +kernel⟩⟩

end TieredStyle.Style
