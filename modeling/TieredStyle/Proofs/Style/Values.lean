import TieredStyle.Proofs.Style.Piece

/-!
# What comes of reading a value

For strings and versions the piece decides. An object is read member by member, and each of its states can be
completed.
-/
namespace TieredStyle.Style
open Json

/-- A piece that stands for no value, whatever could stand in its place. -/
def Valueless (tok _more : List Char) : Prop := NoValue tok

section

variable {α β σ : Type} {r : Reader α} {skip : List Char → Option (List Char)}
  {cs used rest w : List Char} {a : α}

/-! ## Strings -/

theorem letters?_text (s : String) (rest : List Char) :
    letters? (s.toList.flatMap escapeChar ++ '"' :: rest) = some (s.toList, rest) := by
  obtain ⟨_, h⟩ := takeChars_flatMap s.toList rest
  rw [letters?, h]
  rfl

/-- What is taken for a string, if it is a string that will do. -/
def textThen (g : String → Except ReadError α) : Reader α := fun rest =>
  (require (letters? rest)).bind fun p => (g (String.ofList p.1)).map fun a => (a, p.2)

theorem textThen_text (g : String → Except ReadError α) (s : String) (rest : List Char) :
    textThen g (s.toList.flatMap escapeChar ++ '"' :: rest) = (g s).map fun a => (a, rest) := by
  rw [textThen, letters?_text]
  simp only [require, Except.bind, String.ofList_toList]

/-- A string, some of which will not do: the empty one does. -/
theorem Outcome.quoted {g : String → Except ReadError α}
    (hr : ∀ rest, r (w ++ '"' :: rest) = textThen g rest) (hskip : ∀ rest, skip (w ++ '"' :: rest) = chars? rest)
    (hempty : g "" = .ok a) (hg : ∀ s e, g s = .error e → e ≠ .notJson) (rest : List Char) :
    Outcome r skip Valueless (w ++ '"' :: rest) := by
  have hbegins : Reads r skip (w ++ ['"', '"']) a := by
    intro rest _
    rw [List.append_assoc, List.cons_append, List.singleton_append, hr, hskip, textThen, letters?_close, chars?_close]
    refine ⟨?_, rfl⟩
    have hempty : g (String.ofList []) = .ok a := hempty
    simp only [require, Except.bind, hempty, Except.map]
  cases hchars : chars? rest with
  | none =>
      have hletters : letters? rest = none := by
        cases hletters : letters? rest with
        | none => rfl
        | some p => cases (chars?_of_letters? hletters).symm.trans hchars
      refine .broken ?_ (by rw [hskip, hchars])
      rw [hr, textThen, hletters]
      rfl
  | some rest' =>
      obtain ⟨used, hused, rfl⟩ := exists_of_chars? hchars
      obtain ⟨letters, hletters⟩ := hused.read
      have hfault {e : ReadError} (hsettled : ∀ rest, textThen g (used ++ rest) = .error e)
          (he : e = .notJson → NoValue ('"' :: used)) : Outcome r skip Valueless (w ++ '"' :: (used ++ rest')) := by
        have hcs : w ++ '"' :: (used ++ rest') = w ++ ('"' :: used ++ rest') := rfl
        refine .fault (e := e) hcs (stops_of_ne (by decide) _ rest')
          ⟨⟨_, _, rfl, by decide⟩, ⟨_, a, hbegins, he⟩, fun rest _ => ?_, [], fun rest _ =>
            ⟨stops_of_ne (by decide) _ _, ?_⟩⟩
        · rw [List.cons_append, hr, hsettled]
        · rw [List.nil_append, List.cons_append, hskip, hused.skipped]
      cases letters with
      | none =>
          refine hfault (e := .notJson) (fun rest => ?_) fun _ => .text hused hletters
          rw [textThen, hletters]
          rfl
      | some xs =>
          have hread (rest : List Char) :
              textThen g (used ++ rest) = (g (String.ofList xs)).map fun a => (a, rest) := by
            rw [textThen, hletters]
            rfl
          cases hresult : g (String.ofList xs) with
          | error e =>
              rw [hresult] at hread
              exact hfault hread fun he => absurd he (hg _ e hresult)
          | ok b =>
              rw [hresult] at hread
              have hcs : w ++ '"' :: (used ++ rest') = (w ++ '"' :: used) ++ rest' := by simp
              refine .read (a := b) hcs (fun rest _ => ?_) (by rw [hr, hread]; rfl) (by rw [hskip, hused.skipped])
              rw [List.append_assoc, List.cons_append, hr, hskip, hread, hused.skipped]
              exact ⟨rfl, rfl⟩

theorem reads_text {g : String → Except ReadError α} {s : String} (hr : ∀ rest, r (w ++ '"' :: rest) = textThen g rest)
    (hskip : ∀ rest, skip (w ++ '"' :: rest) = chars? rest) (hs : g s = .ok a) :
    Reads r skip (w ++ (text s).toList) a := by
  intro rest _
  have hchars := chars?_of_letters? (letters?_text s rest)
  rw [toList_text, List.append_assoc, List.cons_append, List.append_assoc, List.singleton_append, hr, hskip, hchars,
    textThen_text, hs]
  exact ⟨rfl, rfl⟩

theorem plain_takeString (cs : List Char) : plain takeString cs = match mark? '"' cs with
    | some rest => textThen .ok rest
    | none => .error (mismatch .text cs) := by
  rw [plain, takeString, mark?]
  cases takeMark '"' cs with
  | none => rfl
  | some p =>
      simp only [Option.map_some, textThen, letters?, takeText]
      cases takeChars p.1 <;> rfl

theorem plain_takeString_quote (hw : Blanks w) (rest : List Char) :
    plain takeString (w ++ '"' :: rest) = textThen .ok rest := by
  rw [plain_takeString, mark?_self hw (by decide)]

theorem reads_string (hw : Blanks w) : Reads (plain takeString) skip? (w ++ (text "").toList) "" :=
  reads_text (plain_takeString_quote hw) (skip?_quote hw) rfl

theorem agrees_string : Agrees (plain takeString) skip? Valueless := by
  refine .ofPiece .text (· = '"') (fun w hw => ?_) (fun w c cs hw hc hne => ?_)
    (fun w c cs hw _ hc => ?_) (fun w hw => ⟨_, _, reads_string hw⟩) fun _ _ h => h
  · rw [plain_takeString, mark?_blanks hw]
  · rw [plain_takeString, mark?_of_ne hw hc hne]
  · subst hc
    exact .quoted (plain_takeString_quote hw) (skip?_quote hw) rfl (fun _ _ h => nomatch h) cs

/-! ## Versions -/

/-- The version that a number stands for. -/
def versionOf (x : Numeral) : Except ReadError UInt64 :=
  match x.value? with
  | none => .error .notJson
  | some (.natural n) => .ok (UInt64.ofNat n)
  | some (.negative n) => .error (.negative n)
  | some number => .error (.wrongType (.number number) .version)

theorem plain_takeVersion (cs : List Char) : plain takeVersion cs = match numeral? (skipBlanks cs) with
    | some p => (versionOf p.1).map fun v => (v, p.2)
    | none => .error (mismatch .version cs) := by
  rw [plain, takeVersion, numeral?]
  cases takeNumeral (skipBlanks cs) with
  | none => rfl
  | some p =>
      obtain ⟨x, rest, h⟩ := p
      simp only [Option.map_some, pair, versionOf]
      cases x.value? with
      | none => rfl
      | some v => cases v <;> rfl

theorem plain_takeVersion_cons {c : Char} (hw : Blanks w) (hc : isBlank c = false) (rest : List Char) :
    plain takeVersion (w ++ c :: rest) = match numeral? (c :: rest) with
      | some p => (versionOf p.1).map fun v => (v, p.2)
      | none => .error (mismatch .version (w ++ c :: rest)) := by
  rw [plain_takeVersion, skipBlanks_append hw, skipBlanks_cons hc]

theorem versionOf_ne {x : Numeral} (h : versionOf x = .error .notJson) : x.value? = none := by
  unfold versionOf at h
  split at h
  next hnone => exact hnone
  all_goals cases h

theorem numeral?_zero : numeral? ['0'] = some (⟨false, ['0'], [], none⟩, []) := rfl

theorem reads_version (hw : Blanks w) : Reads (plain takeVersion) skip? (w ++ ['0']) 0 := by
  intro rest hrest
  have hnumeral := stops_of_goes hrest _ numeral?_zero
  rw [List.singleton_append] at hnumeral
  rw [List.append_assoc, List.singleton_append, plain_takeVersion_cons hw (by decide),
    skip?_numeral hw (by decide), hnumeral]
  exact ⟨rfl, rfl⟩

theorem outcome_numeral {c : Char} (hw : Blanks w) (hc : BeginsNumeral c) (cs : List Char) :
    Outcome (plain takeVersion) skip? Valueless (w ++ c :: cs) := by
  cases h : numeral? (c :: cs) with
  | none =>
      refine .broken ?_ (by rw [skip?_numeral hw hc, h, Option.map_none])
      rw [plain_takeVersion_cons hw hc.not_blank, h]
      dsimp only
      rw [mismatch, found?_numeral hw hc, h, Option.bind_none]
  | some p =>
      obtain ⟨x, rest⟩ := p
      obtain ⟨tok, htok, hx, hstops⟩ := exists_stops h
      have hpiece : Piece tok (x.value?.map .number) := .number hx
      have hread (rest : List Char) (hstops : Stops tok rest) :
          plain takeVersion (w ++ (tok ++ rest)) = (versionOf x).map (fun v => (v, rest)) ∧
            skip? (w ++ (tok ++ rest)) = some rest := by
        obtain ⟨d, more, rfl, hd⟩ := exists_of_numeral? hx
        have hx := hstops x hx
        rw [List.cons_append] at hx ⊢
        rw [plain_takeVersion_cons hw hd.not_blank, skip?_numeral hw hd, hx]
        exact ⟨rfl, rfl⟩
      rw [htok]
      cases hversion : versionOf x with
      | error e =>
          rw [hversion] at hread
          refine hpiece.refused hw hstops (fun rest hstops => (hread rest hstops).1) ⟨_, _, reads_version hw⟩
            (fun he => ?_) fun _ _ h => h
          rw [versionOf_ne (he ▸ hversion), Option.map_none]
      | ok v =>
          rw [hversion] at hread
          refine .read (a := v) (List.append_assoc w tok rest).symm (fun rest hrest => ?_)
            (hread rest hstops).1 (hread rest hstops).2
          rw [List.append_assoc]
          exact hread rest (stops_of_goes hrest)

theorem agrees_version : Agrees (plain takeVersion) skip? Valueless := by
  refine .ofPiece .version BeginsNumeral (fun w hw => ?_) (fun w c cs hw hc hne => ?_)
    (fun w c cs hw _ hc => outcome_numeral hw hc cs) (fun w hw => ⟨_, _, reads_version hw⟩) fun _ _ h => h
  · rw [plain_takeVersion, skipBlanks_eq_nil hw]
    rfl
  · rw [plain_takeVersion_cons hw hc, numeral?_eq_none hne]

end

end TieredStyle.Style
