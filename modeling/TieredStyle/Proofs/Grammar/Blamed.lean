import TieredStyle.Css.Sheet.OfItems
import TieredStyle.Proofs.Grammar.Raised
import TieredStyle.Proofs.Lexing.Placed

/-!
# The token an error is about

An error about a token gives the place of the first token at which reading fails. The line is the line of that token
in the text; the column is its column if each character before it on the line that belongs to a comment is a single
byte, and else it is too large.
-/
namespace TieredStyle.Css
open TieredStyle.Text

/-- What can be read. -/
inductive Reader
  | sheet | selector | params | property | value
deriving DecidableEq

namespace Reader

/-- Reads a text, whatever comes of it. -/
def read : Reader → String → Except ParseError Unit
  | .sheet, s => discard (Sheet.read s)
  | .selector, s => discard (readSelector s)
  | .params, s => discard (readParams s)
  | .property, s => discard (readProperty s)
  | .value, s => discard (readValue s)

/-- Reads tokens, whatever comes of it. -/
def take : Reader → List Token → Except ParseError Unit
  | .sheet, ts => discard (takeItems 0 ts)
  | .selector, ts => do
    let (taken, rest) := collect endsHead 0 ts
    expectEnd rest
    if taken.isEmpty then throw (.unexpectedEnd .selector)
  | .params, ts => expectEnd (collect endsHead 0 ts).2
  | .property, [] => .error (.unexpectedEnd .propertyName)
  | .property, t :: ts =>
    if t.kind = .ident then expectEnd ts else .error (t.unexpected (.expected .propertyName t.text))
  | .value, ts => expectEnd (takeValue ts).2

theorem read_eq_take (r : Reader) (s : String) : r.read s = r.take (Token.ofText s) := by
  cases r with
  | sheet =>
      simp only [read, take, Sheet.read, readItems]
      cases takeItems 0 (Token.ofText s) <;> rfl
  | selector =>
      simp only [read, take, readSelector]
      obtain ⟨taken, rest⟩ := collect endsHead 0 (Token.ofText s)
      cases rest with
      | nil => cases taken <;> rfl
      | cons => rfl
  | params =>
      simp only [read, take, readParams]
      obtain ⟨taken, rest⟩ := collect endsHead 0 (Token.ofText s)
      cases rest <;> rfl
  | property =>
      simp only [read, readProperty]
      cases Token.ofText s with
      | nil => rfl
      | cons t ts =>
          by_cases ht : t.kind = .ident
          · cases ts <;> simp [take, ht] <;> rfl
          · simp [take, ht]
            rfl
  | value =>
      simp only [read, take, readValue]
      obtain ⟨value, rest⟩ := takeValue (Token.ofText s)
      cases rest <;> rfl

theorem take_sheet_eq_error {ts : List Token} {x : ParseError} :
    Reader.sheet.take ts = .error x ↔ ItemsFail 0 ts x := by
  rw [← takeItems_eq_error_iff, take]
  cases takeItems 0 ts with
  | error e =>
      constructor
      · intro h
        cases h
        rfl
      · intro h
        cases h
        rfl
  | ok p =>
      constructor
      · intro h
        cases h
      · intro h
        cases h

/-- If a fragment is not over then it is not, whatever stands behind its next token. -/
theorem raisedIn_of_expectEnd {Fail : List Token → ParseError → Prop} {ts rest : List Token} {pos : Position}
    {o : Objection} (h : expectEnd rest = .error (.unexpectedToken pos o))
    (hrest : ∀ e us, rest = e :: us → ∃ front, ts = front ++ e :: us ∧
      ∀ ws, Fail (front ++ e :: ws) (e.unexpected (.trailing e.text))) : RaisedIn Fail ts pos o := by
  cases rest with
  | nil => cases h
  | cons e us =>
      obtain ⟨front, rfl, hfail⟩ := hrest e us rfl
      exact raisedIn_of_unexpected front (Except.error.inj h) hfail

theorem raisedIn {r : Reader} {ts : List Token} {pos : Position} {o : Objection}
    (h : r.take ts = .error (.unexpectedToken pos o)) : RaisedIn (fun ts x => r.take ts = .error x) ts pos o := by
  cases r with
  | sheet =>
      obtain ⟨us, t, vs, hts, hpos, hfail⟩ := (take_sheet_eq_error.1 h).raisedIn rfl
      exact ⟨us, t, vs, hts, hpos, fun ws => take_sheet_eq_error.2 (hfail ws)⟩
  | selector =>
      rcases bind_eq_error.1 h with h | ⟨_, _, h⟩
      · apply raisedIn_of_expectEnd h
        intro e us he
        obtain ⟨hts, hhead⟩ := collect_before (Prod.ext rfl he)
        refine ⟨_, hts, fun ws => ?_⟩
        rw [take, hhead]
        rfl
      · split at h <;> cases h
  | params =>
      apply raisedIn_of_expectEnd h
      intro e us he
      obtain ⟨hts, hhead⟩ := collect_before (Prod.ext rfl he)
      refine ⟨_, hts, fun ws => ?_⟩
      rw [take, hhead]
      rfl
  | property =>
      cases ts with
      | nil => cases h
      | cons t ts =>
          by_cases ht : t.kind = .ident
          · simp only [take, ht, ↓reduceIte] at h
            apply raisedIn_of_expectEnd h
            rintro e us rfl
            refine ⟨[t], rfl, fun ws => ?_⟩
            simp only [List.singleton_append, take, ht, ↓reduceIte]
            rfl
          · simp only [take, ht, ↓reduceIte] at h
            refine raisedIn_of_unexpected [] (Except.error.inj h) fun ws => ?_
            simp only [List.nil_append, take, ht, ↓reduceIte]
  | value =>
      apply raisedIn_of_expectEnd h
      intro e us he
      obtain ⟨front, hts, hfront⟩ := takeValue_before (Prod.ext rfl he)
      refine ⟨front, hts, fun ws => ?_⟩
      rw [take, hfront]
      rfl

/-- The token is the first at which the reader fails, with this objection and whatever stands behind it. -/
structure Blames (r : Reader) (us : List Token) (t : Token) (o : Objection) : Prop where
  before : ∀ pos o', r.take us ≠ .error (.unexpectedToken pos o')
  raised : ∀ ws, r.take (us ++ t :: ws) = .error (t.unexpected o)

/-- Each error about a token has such a token. -/
theorem exists_blamed {r : Reader} {s : String} {pos : Position} {o : Objection}
    (h : r.read s = .error (.unexpectedToken pos o)) :
    ∃ us t vs, Token.ofText s = us ++ t :: vs ∧ pos = t.start ∧ r.Blames us t o := by
  rw [read_eq_take] at h
  obtain ⟨us, t, vs, hts, rfl, hraised⟩ := raisedIn h
  refine ⟨us, t, vs, hts, rfl, fun pos' o' hbefore => ?_, hraised⟩
  obtain ⟨us', t', vs', rfl, rfl, hraised'⟩ := raisedIn hbefore
  have hfirst := hraised' (vs' ++ t :: vs)
  have hsame := hraised vs
  rw [List.append_assoc, List.cons_append] at hsame hts
  rw [hfirst] at hsame
  injection hsame with hsame
  injection hsame with hstart
  exact Token.start_ne hts hstart.symm

/-- An error about a token tells the line on which the token stands. It tells the column if each character of a comment
that stands before it on this line is a single byte, and otherwise more. -/
theorem position_of_unexpected {r : Reader} {s : String} {pos : Position} {o : Objection}
    (h : r.read s = .error (.unexpectedToken pos o)) : ∃ us t vs ms back,
      Token.ofText s = us ++ t :: vs ∧ r.Blames us t o ∧ Token.Behind s ms back t vs ∧
        pos.line = 1 + (ms.map Prod.fst).count '\n' ∧
          pos.column = 1 + ((lastLine ms).map columns).sum ∧
            (pos.column = 1 + ((ms.map Prod.fst).rtakeWhile (· != '\n')).length ↔
              ∀ m ∈ lastLine ms, m.2 = true → m.1.utf8Size = 1) := by
  obtain ⟨us, t, vs, hts, rfl, hblames⟩ := exists_blamed h
  obtain ⟨ms, back, hbehind⟩ := Token.exists_behind hts
  have hline := line_flatMap_blanked ms
  have hcolumn := column_flatMap_blanked ms
  rw [← hbehind.start] at hline hcolumn
  refine ⟨us, t, vs, ms, back, hts, hblames, hbehind, hline, hcolumn, ?_⟩
  rw [hcolumn, ← length_lastLine, Nat.add_left_cancel_iff]
  exact sum_columns_eq_length_iff (lastLine ms)

/-- The character of two bytes stands on an earlier line. -/
theorem position_of_unexpected_lines :
    Reader.sheet.read "/*\u00e9\n*/.a \x7b color red \x7d" =
        .error (.unexpectedToken ⟨2, 14⟩ (.expected .colon "red")) ∧
      ∃ us t vs ms back, Token.ofText "/*\u00e9\n*/.a \x7b color red \x7d" = us ++ t :: vs ∧
        Reader.sheet.Blames us t (.expected .colon "red") ∧
          Token.Behind "/*\u00e9\n*/.a \x7b color red \x7d" ms back t vs ∧
            (ms.map Prod.fst).count '\n' = 1 ∧ ((lastLine ms).map columns).sum = 13 := by
  have hread : Reader.sheet.read "/*\u00e9\n*/.a \x7b color red \x7d" =
      .error (.unexpectedToken ⟨2, 14⟩ (.expected .colon "red")) := by decide +kernel
  obtain ⟨us, t, vs, ms, back, hts, hblames, hbehind, hline, hcolumn, _⟩ := position_of_unexpected hread
  exact ⟨hread, us, t, vs, ms, back, hts, hblames, hbehind, Nat.add_left_cancel hline.symm,
    Nat.add_left_cancel hcolumn.symm⟩

/-- Behind a comment of five characters and six bytes the sixth column is told as the seventh. -/
theorem exists_column_ne : ∃ t ms, Reader.sheet.read "/*\u00e9*/\x7d" = .error (t.unexpected .unmatchedBrace) ∧
    Token.Behind "/*\u00e9*/\x7d" ms [Mark.braceClose.char] t [] ∧
      (ms.map Prod.fst).rtakeWhile (· != '\n') = "/*\u00e9*/".toList ∧ t.start = ⟨1, 7⟩ := by
  refine ⟨⟨⟨.mark .braceClose, "\x7d"⟩, true, ⟨1, 7⟩⟩, flagComments false "/*\u00e9*/".toList, by decide +kernel,
    ⟨by decide +kernel, by decide +kernel, by decide +kernel, by decide +kernel, by decide +kernel,
      by decide +kernel⟩, by decide +kernel, rfl⟩

end Reader
end TieredStyle.Css
