import TieredStyle.Css.Fragment
import TieredStyle.Proofs.Lexing.Stops

/-!
# Scanning what tokens spell

A run of tokens is settled if each of them stops before the spelling of those that follow it, with one
space where blanks stood. A scan of a settled spelling gives the tokens back, wherever it starts.
-/
namespace TieredStyle.Css
open TieredStyle.Text

theorem Lexeme.Stops.text_ne_nil {l : Lexeme} {r : List Char} (h : l.Stops r) :
    l.text.toList ≠ [] := by
  obtain ⟨c, cs, ht, _⟩ := h
  rw [ht]
  exact List.cons_ne_nil c cs

namespace Token

/-! ## One step of a scan -/

theorem scan_nil (pos : Position) (b : Bool) : scan pos b [] = [] := by rw [scan]

theorem scan_blank {c : Char} (h : isBlank c = true) (pos : Position) (b : Bool) (cs : List Char) :
    scan pos b (c :: cs) = scan (pos.advance c) true cs := by
  rw [scan, if_pos h]

theorem scan_stops {l : Lexeme} {r : List Char} (h : l.Stops r) (pos : Position) (b : Bool) :
    scan pos b (l.text.toList ++ r) =
      ⟨l, b, pos⟩ :: scan (pos.skip l.text.toList) false r := by
  obtain ⟨c, cs, ht, hc, hm⟩ := h
  have hl : l = ⟨l.kind, String.ofList (c :: cs)⟩ := by
    rw [← ht, String.ofList_toList]
  rw [ht, List.cons_append, scan, if_neg (by rw [hc]; decide), hm]
  simp only [List.take_left', List.drop_left']
  rw [← hl]

/-- A text that starts with no blank starts with a lexeme that stops before the rest. -/
theorem exists_stops {c : Char} (h : isBlank c = false) (cs : List Char) :
    ∃ (l : Lexeme) (r : List Char), c :: cs = l.text.toList ++ r ∧ l.Stops r := by
  have hle := munch_le c cs
  refine ⟨⟨(munch c cs).1, String.ofList (c :: cs.take (munch c cs).2)⟩, cs.drop (munch c cs).2,
    ?_, c, cs.take (munch c cs).2, String.toList_ofList, h, ?_⟩
  · rw [String.toList_ofList, List.cons_append, List.take_append_drop]
  · rw [List.take_append_drop, List.length_take, Nat.min_eq_left hle]

/-- Induction along a scan: over blanks and over lexemes. -/
theorem scan_induction {motive : List Char → Prop} (nil : motive [])
    (blank : ∀ c cs, isBlank c = true → motive cs → motive (c :: cs))
    (lexeme : ∀ (l : Lexeme) r, l.Stops r → motive r → motive (l.text.toList ++ r))
    (cs : List Char) : motive cs := by
  match cs with
  | [] => exact nil
  | c :: cs =>
      by_cases hc : isBlank c = true
      · exact blank c cs hc (scan_induction nil blank lexeme cs)
      · obtain ⟨l, r, hcs, hl⟩ := exists_stops (by simpa using hc) cs
        have hlt : r.length < (c :: cs).length := by
          have := List.length_pos_iff.2 hl.text_ne_nil
          rw [hcs, List.length_append]
          omega
        rw [hcs]
        exact lexeme l r hl (scan_induction nil blank lexeme r)
termination_by cs.length
decreasing_by
  · simp
  · exact hlt

theorem stops_of_mem_scan {pos : Position} {b : Bool} {cs : List Char} :
    ∀ t ∈ scan pos b cs, ∃ r, t.Stops r := by
  induction cs using scan_induction generalizing pos b with
  | nil =>
      rw [scan_nil]
      intro t ht
      cases ht
  | blank c cs hc ih =>
      rw [scan_blank hc]
      exact ih
  | lexeme l r hl ih =>
      rw [scan_stops hl]
      intro t ht
      rcases List.mem_cons.1 ht with rfl | ht
      · exact ⟨r, hl⟩
      · exact ih t ht

theorem scan_blanks {w : List Char} (h : ∀ c ∈ w, isBlank c = true) (pos : Position) (b : Bool)
    (r : List Char) : ∃ pos' b', scan pos b (w ++ r) = scan pos' b' r := by
  induction w generalizing pos b with
  | nil => exact ⟨pos, b, rfl⟩
  | cons c w ih =>
      rw [List.cons_append, scan_blank (h c List.mem_cons_self)]
      exact ih (fun d hd => h d (List.mem_cons_of_mem _ hd)) _ _

/-! ## Spelling -/

/-- A token without its place. -/
def unplaced (t : Token) : Token := { t with start := {} }

/-- What tokens spell, with one space where blanks stood. -/
def spelling : List Token → List Char
  | [] => []
  | t :: ts => (if t.spaced then [' '] else []) ++ t.text.toList ++ spelling ts

/-- Each token stops before what the tokens after it and `r` spell. -/
def Settled : List Token → List Char → Prop
  | [], _ => True
  | t :: ts, r => t.toLexeme.Stops (spelling ts ++ r) ∧ Settled ts r

theorem spelling_append (ts us : List Token) :
    spelling (ts ++ us) = spelling ts ++ spelling us := by
  induction ts with
  | nil => rfl
  | cons t ts ih => simp only [List.cons_append, spelling, ih, List.append_assoc]

theorem spelling_unplaced (ts : List Token) : spelling (ts.map unplaced) = spelling ts := by
  induction ts with
  | nil => rfl
  | cons t ts ih => rw [List.map_cons, spelling, spelling, ih]; rfl

theorem settled_append {ts us : List Token} {r : List Char} :
    Settled (ts ++ us) r ↔ Settled ts (spelling us ++ r) ∧ Settled us r := by
  induction ts with
  | nil => simp [Settled]
  | cons t ts ih =>
      simp only [List.cons_append, Settled, ih, spelling_append, List.append_assoc, and_assoc]

theorem scan_spelling {ts : List Token} {r : List Char} (h : Settled ts r) (pos : Position) :
    ∃ us pos', scan pos false (spelling ts ++ r) = us ++ scan pos' false r ∧
      us.map unplaced = ts.map unplaced := by
  induction ts generalizing pos with
  | nil => exact ⟨[], pos, rfl, rfl⟩
  | cons t ts ih =>
      obtain ⟨ht, hts⟩ := h
      have step : ∃ pos₁, scan pos false (spelling (t :: ts) ++ r) =
          scan pos₁ t.spaced (t.text.toList ++ (spelling ts ++ r)) := by
        cases hs : t.spaced with
        | false => exact ⟨pos, by simp [spelling, hs]⟩
        | true =>
            refine ⟨pos.advance ' ', ?_⟩
            simp only [spelling, hs, ↓reduceIte, List.append_assoc, List.cons_append,
              List.nil_append]
            rw [scan_blank (by decide)]
      obtain ⟨pos₁, hstep⟩ := step
      obtain ⟨us, pos₂, hus, hmap⟩ := ih hts (pos₁.skip t.text.toList)
      refine ⟨⟨t.toLexeme, t.spaced, pos₁⟩ :: us, pos₂, ?_, ?_⟩
      · rw [hstep, scan_stops ht, hus]
        rfl
      · rw [List.map_cons, List.map_cons, hmap]
        rfl

/-- A run of tokens as it stands at the start of a text: without places and with no blanks before. -/
def bare : List Token → List Token
  | [] => []
  | t :: ts => ⟨t.toLexeme, false, {}⟩ :: ts.map unplaced

/-- What tokens spell at the start of a text. -/
def spelled (ts : List Token) : List Char := spelling (bare ts)

theorem kind_of_bare {ts us : List Token} (h : bare ts = bare us) :
    ts.map (·.kind) = us.map (·.kind) := by
  have hbare : ∀ ts : List Token, (bare ts).map (·.kind) = ts.map (·.kind) := by
    intro ts
    cases ts with
    | nil => rfl
    | cons t ts => simp [bare, unplaced]
  rw [← hbare ts, h, hbare us]

/-- In front of `r` the text `x` is cut into tokens of which `P` holds, whatever stands before it. -/
def Cuts (x r : List Char) (P : List Token → Prop) : Prop :=
  ∀ pos b, ∃ ts pos' b', scan pos b (x ++ r) = ts ++ scan pos' b' r ∧ P ts

theorem Cuts.imp {x r : List Char} {P Q : List Token → Prop} (h : Cuts x r P)
    (hPQ : ∀ ts, P ts → Q ts) : Cuts x r Q := by
  intro pos b
  obtain ⟨ts, pos', b', hs, hP⟩ := h pos b
  exact ⟨ts, pos', b', hs, hPQ ts hP⟩

theorem cuts_spelled {ts : List Token} {r : List Char} (h : Settled ts r) :
    Cuts (spelled ts) r fun us => bare us = bare ts := by
  intro pos b
  cases ts with
  | nil => exact ⟨[], pos, b, rfl, rfl⟩
  | cons t ts =>
      obtain ⟨ht, hts⟩ := h
      obtain ⟨us, pos', hus, hmap⟩ := scan_spelling hts (pos.skip t.text.toList)
      refine ⟨⟨t.toLexeme, b, pos⟩ :: us, pos', false, ?_, ?_⟩
      · have hx : spelled (t :: ts) ++ r = t.text.toList ++ (spelling ts ++ r) := by
          simp [spelled, bare, spelling, spelling_unplaced]
        rw [hx, scan_stops ht, hus]
        rfl
      · simp only [bare, hmap]

end Token
end TieredStyle.Css
