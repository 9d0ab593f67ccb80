import TieredStyle.Proofs.Lexing.Alone

/-!
# Nothing is lost by cutting a text into lexemes

A text is its lexemes in order with blanks between them, so no character is lost and none is read twice, and each
of them is cut alone as it is in the text.
-/
namespace TieredStyle.Css
open TieredStyle.Text

/-- Lexemes in order, with the blanks in front of them and behind each of them. -/
def woven (lead : List Char) (ls : List Lexeme) (gaps : List (List Char)) : List Char :=
  lead ++ (ls.zip gaps).flatMap fun (l, gap) => l.text.toList ++ gap

theorem Token.exists_woven_scan (pos : Position) (b : Bool) (cs : List Char) :
    ∃ lead gaps, gaps.length = (scan pos b cs).length ∧ (∀ gap ∈ lead :: gaps, ∀ c ∈ gap, isBlank c = true) ∧
      cs = woven lead ((scan pos b cs).map (·.toLexeme)) gaps := by
  induction cs using scan_induction generalizing pos b with
  | nil =>
      rw [scan_nil]
      exact ⟨[], [], rfl, by simp, rfl⟩
  | blank c cs hc ih =>
      obtain ⟨lead, gaps, hlength, hblank, hcs⟩ := ih (pos.advance c) true
      rw [scan_blank hc]
      rw [List.forall_mem_cons] at hblank
      refine ⟨c :: lead, gaps, hlength, ?_, ?_⟩
      · exact List.forall_mem_cons.2 ⟨List.forall_mem_cons.2 ⟨hc, hblank.1⟩, hblank.2⟩
      · exact congrArg (c :: ·) hcs
  | lexeme l r hl ih =>
      obtain ⟨lead, gaps, hlength, hblank, hr⟩ := ih (pos.skip l.text.toList) false
      rw [scan_stops hl]
      refine ⟨[], lead :: gaps, congrArg (· + 1) hlength, ?_, ?_⟩
      · exact List.forall_mem_cons.2 ⟨List.forall_mem_nil _, hblank⟩
      · rw [List.map_cons, woven, List.zip_cons_cons, List.flatMap_cons, List.append_assoc, ← woven, ← hr]
        rfl

/-- A text is its lexemes in order with blanks in front of them, between them and behind them. None of them is
empty, and each is cut alone as it is in the text. -/
theorem lexemes_lossless (s : String) :
    (∃ lead gaps, gaps.length = (lexemes s).length ∧ (∀ gap ∈ lead :: gaps, ∀ c ∈ gap, isBlank c = true) ∧
      s.toList = woven lead (lexemes s) gaps) ∧
    ∀ l ∈ lexemes s, l.text ≠ "" ∧ lexemes l.text = [l] := by
  constructor
  · obtain ⟨lead, gaps, hlength, hblank, hs⟩ := Token.exists_woven_scan {} false s.toList
    exact ⟨lead, gaps, by rw [hlength, lexemes, List.length_map], hblank, hs⟩
  · intro l hl
    obtain ⟨t, ht, rfl⟩ := List.mem_map.1 hl
    obtain ⟨r, hstops⟩ := Token.stops_of_mem_scan t ht
    exact ⟨fun hempty => hstops.text_ne_nil (by rw [hempty]; rfl), hstops.lexemes_text⟩

end TieredStyle.Css
