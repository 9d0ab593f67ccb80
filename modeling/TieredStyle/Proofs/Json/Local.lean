import TieredStyle.Json.Skip
import TieredStyle.Proofs.Json.Numeral
import TieredStyle.Proofs.Json.Text

/-!
# What is read from the front of a text

Reading takes a piece off the front of a text, and it would take the same piece off in front of any other rest.
Only a number has to be ended by what follows it.
-/
namespace TieredStyle.Json

/-! ## What follows -/

/-- The text ends, or it goes on with a character of the class. -/
def Goes (p : Char → Prop) (cs : List Char) : Prop := ∀ c ∈ cs.head?, p c

theorem goes_nil {p : Char → Prop} : Goes p [] := fun _ h => by cases h

theorem goes_cons {p : Char → Prop} {c : Char} {cs : List Char} : Goes p (c :: cs) ↔ p c := by
  simp [Goes]

theorem Goes.append {p : Char → Prop} {cs ds : List Char} (h : Goes p cs) (h' : Goes p ds) :
    Goes p (cs ++ ds) := by
  cases cs with
  | nil => exact h'
  | cons c cs => exact goes_cons.2 (goes_cons.1 h)

theorem Goes.imp {p q : Char → Prop} {cs : List Char} (h : Goes p cs) (hpq : ∀ c, p c → q c) : Goes q cs :=
  fun c hc => hpq c (h c hc)

/-! ## Blanks and marks -/

def Blanks (w : List Char) : Prop := ∀ c ∈ w, isBlank c = true

theorem skipBlanks_append {w : List Char} (h : Blanks w) (cs : List Char) :
    skipBlanks (w ++ cs) = skipBlanks cs :=
  List.dropWhile_append_of_pos h

theorem skipBlanks_eq_nil {w : List Char} (h : Blanks w) : skipBlanks w = [] := by
  have hnil := skipBlanks_append h []
  rwa [List.append_nil] at hnil

/-- Behind blanks a text ends, or something stands there. -/
theorem exists_blanks (cs : List Char) :
    ∃ w, Blanks w ∧ (cs = w ∨ ∃ c rest, isBlank c = false ∧ cs = w ++ c :: rest) := by
  induction cs with
  | nil => exact ⟨[], List.forall_mem_nil _, .inl rfl⟩
  | cons c cs ih =>
      by_cases hc : isBlank c = true
      · obtain ⟨w, hw, hcs⟩ := ih
        refine ⟨c :: w, List.forall_mem_cons.2 ⟨hc, hw⟩, hcs.imp (congrArg (c :: ·)) ?_⟩
        rintro ⟨d, rest, hd, rfl⟩
        exact ⟨d, rest, hd, rfl⟩
      · exact ⟨[], List.forall_mem_nil _, .inr ⟨c, cs, by simpa using hc, rfl⟩⟩

/-- The text behind blanks and a given character. -/
def mark? (c : Char) (cs : List Char) : Option (List Char) := (takeMark c cs).map Subtype.val

section

variable {c d : Char} {w : List Char}

theorem mark?_eq (c : Char) (cs : List Char) :
    mark? c cs = match skipBlanks cs with
      | [] => none
      | d :: rest => if d = c then some rest else none := by
  unfold mark? takeMark
  split
  next h => simp only [h, Option.map_none]
  next d rest h =>
    simp only [h]
    split <;> rfl

theorem mark?_blanks (hw : Blanks w) (c : Char) : mark? c w = none := by
  rw [mark?_eq, skipBlanks_eq_nil hw]

theorem mark?_cons (hw : Blanks w) (hd : isBlank d = false) (c : Char) (rest : List Char) :
    mark? c (w ++ d :: rest) = if d = c then some rest else none := by
  rw [mark?_eq, skipBlanks_append hw, skipBlanks_cons hd]

theorem mark?_self (hw : Blanks w) (hc : isBlank c = false) (rest : List Char) :
    mark? c (w ++ c :: rest) = some rest := by
  rw [mark?_cons hw hc, if_pos rfl]

theorem mark?_of_ne (hw : Blanks w) (hd : isBlank d = false) (hne : d ≠ c) (rest : List Char) :
    mark? c (w ++ d :: rest) = none := by
  rw [mark?_cons hw hd, if_neg hne]

theorem exists_of_mark? {cs rest : List Char} (h : mark? c cs = some rest) :
    isBlank c = false ∧ ∃ w, Blanks w ∧ cs = w ++ c :: rest := by
  obtain ⟨w, hw, rfl | ⟨d, rest', hd, rfl⟩⟩ := exists_blanks cs
  · rw [mark?_blanks hw] at h
    cases h
  · rw [mark?_cons hw hd] at h
    split at h
    next hdc =>
      cases h
      exact hdc ▸ ⟨hd, w, hw, rfl⟩
    next => cases h

end

/-! ## Numbers -/

section

variable {cs rest : List Char}

/-- What has been read and the rest, without the bound on the rest. -/
def pair {α : Type} {n : Nat} (p : Parsed Char α n) : α × List Char := (p.value, p.rest)

def digits (cs : List Char) : List Char × List Char := pair (takeDigits cs)

/-- Whether there is a minus in front, and the rest. -/
def minus (cs : List Char) : Bool × List Char := pair (takeMinus cs)

/-- Whether there is a minus in front of an exponent, and the rest. -/
def exponentSign (cs : List Char) : Bool × List Char := pair (takeSign cs)

theorem digits_append {ds : List Char} (hds : ∀ d ∈ ds, d.isDigit = true)
    (h : Goes (fun c => c.isDigit = false) rest) : digits (ds ++ rest) = (ds, rest) := by
  rw [digits, takeDigits_append hds h]
  rfl

theorem exists_of_digits {ds : List Char} (h : digits cs = (ds, rest)) :
    (∀ d ∈ ds, d.isDigit = true) ∧ cs = ds ++ rest := by
  obtain ⟨rfl, rfl⟩ := Prod.mk.inj h
  exact ⟨List.all_eq_true.1 List.all_takeWhile, (List.takeWhile_append_dropWhile ..).symm⟩

/-- The digits behind a point, if there is one. -/
def fraction? (cs : List Char) : Option (List Char × List Char) := (takeFraction cs).map pair

theorem fraction?_point (cs : List Char) : fraction? ('.' :: cs) =
    if (digits cs).1 = [] then none else some (digits cs) := by
  simp only [fraction?, takeFraction, digits, pair, ← List.isEmpty_iff]
  split <;> rfl

theorem fraction?_of_goes (h : Goes (· ≠ '.') cs) : fraction? cs = some ([], cs) := by
  rw [fraction?, takeFraction.eq_2]
  · rfl
  · rintro more rfl
    exact goes_cons.1 h rfl

theorem exists_of_fraction? {ds : List Char} (h : fraction? cs = some (ds, rest)) :
    ∃ used, cs = used ++ rest ∧ Goes (· = '.') used ∧
      ∀ rest', Goes (fun c => c.isDigit = false ∧ c ≠ '.') rest' → fraction? (used ++ rest') = some (ds, rest') := by
  by_cases hcs : Goes (· ≠ '.') cs
  · rw [fraction?_of_goes hcs] at h
    cases h
    exact ⟨[], rfl, goes_nil, fun rest' h => fraction?_of_goes (h.imp fun _ h => h.2)⟩
  · cases cs with
    | nil => exact absurd goes_nil hcs
    | cons c cs =>
        cases not_not.1 fun hne => hcs (goes_cons.2 hne)
        rw [fraction?_point] at h
        split at h
        next => cases h
        next hne =>
          obtain ⟨hds, hcs⟩ := exists_of_digits (Option.some.inj h)
          refine ⟨'.' :: ds, congrArg ('.' :: ·) hcs, goes_cons.2 rfl, fun rest' hrest' => ?_⟩
          rw [Option.some.inj h] at hne
          rw [List.cons_append, fraction?_point, digits_append hds (hrest'.imp fun _ h => h.1), if_neg hne]

/-- The exponent, if there is one. -/
def exponent? (cs : List Char) : Option (Option (Bool × List Char) × List Char) :=
  (takeExponent cs).map pair

/-- The digits of an exponent behind its sign. -/
def exponentDigits? (negative : Bool) (cs : List Char) : Option (Option (Bool × List Char) × List Char) :=
  if (digits cs).1 = [] then none
  else some (some (negative, (digits cs).1), (digits cs).2)

theorem exponent?_cons {c : Char} (hc : c = 'e' ∨ c = 'E') (cs : List Char) : exponent? (c :: cs) =
    exponentDigits? (exponentSign cs).1 (exponentSign cs).2 := by
  simp only [exponent?, exponentDigits?, takeExponent, hc, ↓reduceIte, exponentSign, digits, pair, ← List.isEmpty_iff]
  split <;> rfl

theorem exponent?_of_goes (h : Goes (fun c => ¬(c = 'e' ∨ c = 'E')) cs) : exponent? cs = some (none, cs) := by
  cases cs with
  | nil => rfl
  | cons c cs => simp [exponent?, takeExponent, goes_cons.1 h, pair]

theorem exists_of_exponentSign {negative : Bool} (h : exponentSign cs = (negative, rest)) :
    ∃ sign, cs = sign ++ rest ∧
      ∀ d more, d.isDigit = true → exponentSign (sign ++ d :: more) = (negative, d :: more) := by
  unfold exponentSign takeSign at h
  split at h
  next =>
    cases h
    exact ⟨['-'], rfl, fun _ _ _ => rfl⟩
  next =>
    cases h
    exact ⟨['+'], rfl, fun _ _ _ => rfl⟩
  next =>
    cases h
    refine ⟨[], rfl, fun d more hd => ?_⟩
    rw [List.nil_append, exponentSign, takeSign.eq_3]
    · rfl
    · rintro _ ⟨⟩
      cases hd
    · rintro _ ⟨⟩
      cases hd

theorem exists_of_exponent? {e : Option (Bool × List Char)} (h : exponent? cs = some (e, rest)) :
    ∃ used, cs = used ++ rest ∧ Goes (fun c => c = 'e' ∨ c = 'E') used ∧
      ∀ rest', Goes EndsNumeral rest' → exponent? (used ++ rest') = some (e, rest') := by
  by_cases hcs : Goes (fun c => ¬(c = 'e' ∨ c = 'E')) cs
  · rw [exponent?_of_goes hcs] at h
    cases h
    exact ⟨[], rfl, goes_nil, fun rest' h => exponent?_of_goes (h.imp fun _ h => h.not_exponent)⟩
  · cases cs with
    | nil => exact absurd goes_nil hcs
    | cons c cs =>
        have hc := not_not.1 fun hne => hcs (goes_cons.2 hne)
        rw [exponent?_cons hc] at h
        cases hsign : exponentSign cs with
        | mk negative cs₀ =>
          cases hdigits : digits cs₀ with
          | mk ds rest₀ =>
            simp only [hsign] at h
            simp only [exponentDigits?, hdigits] at h
            split at h
            next => cases h
            next hne =>
              cases h
              obtain ⟨sign, rfl, hsigned⟩ := exists_of_exponentSign hsign
              obtain ⟨hds, rfl⟩ := exists_of_digits hdigits
              refine ⟨c :: (sign ++ ds), by simp, goes_cons.2 hc, fun rest' hrest' => ?_⟩
              have hrest' := digits_append hds (hrest'.imp fun _ h => h.not_digit)
              obtain ⟨d, ds, rfl⟩ := List.exists_cons_of_ne_nil hne
              have hsigned := hsigned d (ds ++ rest') (hds d List.mem_cons_self)
              simp only [List.cons_append, List.append_assoc] at hrest' ⊢
              rw [exponent?_cons hc, hsigned, exponentDigits?, hrest', if_neg hne]

/-- The number at the front of a text. -/
def numeral? (cs : List Char) : Option (Numeral × List Char) := (takeNumeral cs).map pair

/-- No digit, or a zero in front of others. -/
def isMisled (ds : List Char) : Bool := ds.isEmpty || (ds.head? = some '0' && ds.length ≠ 1)

theorem numeral?_eq (cs : List Char) : numeral? cs =
    let (negative, cs₀) := minus cs
    let (whole, cs₁) := digits cs₀
    if isMisled whole then none
    else (fraction? cs₁).bind fun (fraction, cs₂) =>
      (exponent? cs₂).map fun (exponent, cs₃) => (⟨negative, whole, fraction, exponent⟩, cs₃) := by
  unfold numeral? takeNumeral fraction? exponent? minus digits
  cases takeMinus cs with
  | mk negative cs₀ h₀ =>
    dsimp only [pair]
    cases takeDigits cs₀ with
    | mk whole cs₁ h₁ =>
      dsimp only
      change Option.map pair (if isMisled whole then none else _) = _
      split
      next => rfl
      next =>
        cases takeFraction cs₁ with
        | none => rfl
        | some fraction =>
            cases fraction with
            | mk fraction cs₂ h₂ =>
              simp only [Option.map_some, Option.bind_eq_bind, Option.bind_some, pair]
              cases takeExponent cs₂ with
              | none => rfl
              | some exponent => rfl

theorem exists_of_minus {negative : Bool} (h : minus cs = (negative, rest)) :
    ∃ sign, cs = sign ++ rest ∧
      ∀ d more, d.isDigit = true → minus (sign ++ d :: more) = (negative, d :: more) := by
  unfold minus takeMinus at h
  split at h
  next =>
    cases h
    exact ⟨['-'], rfl, fun _ _ _ => rfl⟩
  next =>
    cases h
    refine ⟨[], rfl, fun d more hd => ?_⟩
    rw [List.nil_append, minus, takeMinus.eq_2]
    · rfl
    · rintro _ ⟨⟩
      cases hd

/-- A number is read in front of everything that ends a number. -/
theorem numeral?_append {x : Numeral} (h : numeral? cs = some (x, rest)) :
    ∃ used, cs = used ++ rest ∧ used ≠ [] ∧
      ∀ rest', Goes EndsNumeral rest' → numeral? (used ++ rest') = some (x, rest') := by
  rw [numeral?_eq] at h
  cases hsign : minus cs with
  | mk negative cs₀ =>
    cases hwhole : digits cs₀ with
    | mk whole cs₁ =>
      simp only [hsign] at h
      simp only [hwhole] at h
      split at h
      next => cases h
      next hmisled =>
        obtain ⟨⟨fraction, cs₂⟩, hfraction, h⟩ := Option.bind_eq_some_iff.1 h
        obtain ⟨⟨exponent, cs₃⟩, hexponent, h⟩ := Option.map_eq_some_iff.1 h
        cases h
        obtain ⟨sign, rfl, hsigned⟩ := exists_of_minus hsign
        obtain ⟨hds, rfl⟩ := exists_of_digits hwhole
        obtain ⟨point, rfl, hpoint, hpointed⟩ := exists_of_fraction? hfraction
        obtain ⟨power, rfl, hpower, hpowered⟩ := exists_of_exponent? hexponent
        cases whole with
        | nil => exact absurd rfl hmisled
        | cons d ds =>
            refine ⟨sign ++ (d :: ds ++ (point ++ power)), by simp, by simp, fun rest' hrest' => ?_⟩
            have hpower : Goes (fun c => c.isDigit = false ∧ c ≠ '.') (power ++ rest') := by
              refine (hpower.imp ?_).append (hrest'.imp fun _ h => ⟨h.not_digit, h.ne_point⟩)
              rintro c (rfl | rfl) <;> decide
            have hpoint : Goes (fun c => c.isDigit = false) (point ++ (power ++ rest')) := by
              refine (hpoint.imp ?_).append (hpower.imp fun _ h => h.1)
              rintro c rfl
              decide
            have hwhole := digits_append hds hpoint
            have hsigned := hsigned d (ds ++ (point ++ (power ++ rest'))) (hds d List.mem_cons_self)
            simp only [numeral?_eq, List.append_assoc, List.cons_append] at hwhole hsigned ⊢
            simp only [hsigned, hwhole, if_neg hmisled, hpointed _ hpower, Option.bind_some,
              hpowered _ hrest', Option.map_some]

/-- Whether a number can begin with the character. -/
def BeginsNumeral (c : Char) : Prop := c.isDigit = true ∨ c = '-'

instance (c : Char) : Decidable (BeginsNumeral c) := inferInstanceAs (Decidable (_ ∨ _))

theorem BeginsNumeral.not_blank {c : Char} (h : BeginsNumeral c) : isBlank c = false := by
  by_contra hblank
  simp only [isBlank, Bool.not_eq_false, Bool.or_eq_true, decide_eq_true_eq] at hblank
  obtain ((rfl | rfl) | rfl) | rfl := hblank <;> exact absurd h (by decide)

theorem BeginsNumeral.ne {c d : Char} (h : BeginsNumeral c) (hd : ¬BeginsNumeral d) : c ≠ d := by
  rintro rfl
  exact hd h

theorem numeral?_eq_none {c : Char} (h : ¬BeginsNumeral c) (cs : List Char) : numeral? (c :: cs) = none := by
  obtain ⟨hdigit, hminus⟩ := not_or.1 h
  have hsign : minus (c :: cs) = (false, c :: cs) := by
    rw [minus, takeMinus.eq_2]
    · rfl
    · intro _ h
      exact hminus (List.cons.inj h).1
  have hwhole : digits (c :: cs) = ([], c :: cs) :=
    digits_append (List.forall_mem_nil _) (goes_cons.2 (by simpa using hdigit))
  simp only [numeral?_eq, hsign, hwhole]
  rfl

/-- Whether a number that ends here does so in front of the rest. -/
def Stops (tok rest : List Char) : Prop :=
  ∀ x, numeral? tok = some (x, []) → numeral? (tok ++ rest) = some (x, rest)

theorem stops_of_goes {tok : List Char} (h : Goes EndsNumeral rest) : Stops tok rest := by
  intro x hx
  obtain ⟨used, htok, -, hused⟩ := numeral?_append hx
  rw [List.append_nil] at htok
  exact htok ▸ hused rest h

/-- The number at the front of a text as a piece of its own. -/
theorem exists_stops {x : Numeral} (h : numeral? cs = some (x, rest)) :
    ∃ tok, cs = tok ++ rest ∧ numeral? tok = some (x, []) ∧ Stops tok rest := by
  obtain ⟨tok, rfl, -, hused⟩ := numeral?_append h
  have hx : numeral? tok = some (x, []) := by
    have hx := hused [] goes_nil
    rwa [List.append_nil] at hx
  refine ⟨tok, rfl, hx, fun y hy => ?_⟩
  cases hx.symm.trans hy
  exact h

theorem stops_of_ne {c : Char} (h : ¬BeginsNumeral c) (cs rest : List Char) : Stops (c :: cs) rest := by
  intro x hx
  rw [numeral?_eq_none h] at hx
  cases hx

/-- A number begins with a digit or a minus. -/
theorem exists_of_numeral? {x : Numeral} (h : numeral? cs = some (x, rest)) :
    ∃ c more, cs = c :: more ∧ BeginsNumeral c := by
  cases cs with
  | nil => cases h
  | cons c more =>
      refine ⟨c, more, rfl, ?_⟩
      by_contra hc
      rw [numeral?_eq_none hc] at h
      cases h

end

end TieredStyle.Json
