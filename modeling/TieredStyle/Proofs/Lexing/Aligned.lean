import TieredStyle.Proofs.Lexing.Respacing

/-!
# Aligned scans

If the first tokens of a text read as what the text starts with, then they are what it is cut into: each of
them stands at its place in the text, and the other tokens are those of the rest.
-/
namespace TieredStyle.Css
open TieredStyle.Text

theorem append_blank_inj {w w' x x' : List Char} (h : w ++ x = w' ++ x')
    (hw : ∀ c ∈ w, isBlank c = true) (hw' : ∀ c ∈ w', isBlank c = true)
    (hx : ∃ c cs, x = c :: cs ∧ isBlank c = false) (hx' : ∃ c cs, x' = c :: cs ∧ isBlank c = false) :
    w = w' ∧ x = x' := by
  induction w generalizing w' with
  | nil =>
      cases w' with
      | nil => exact ⟨rfl, h⟩
      | cons c w' =>
          obtain ⟨d, ds, rfl, hd⟩ := hx
          cases h
          rw [hw' c List.mem_cons_self] at hd
          cases hd
  | cons c w ih =>
      cases w' with
      | nil =>
          obtain ⟨d, ds, rfl, hd⟩ := hx'
          cases h
          rw [hw c List.mem_cons_self] at hd
          cases hd
      | cons d w' =>
          obtain ⟨rfl, htail⟩ := List.cons.inj h
          obtain ⟨rfl, hx⟩ := ih htail (fun e he => hw e (List.mem_cons_of_mem _ he))
            fun e he => hw' e (List.mem_cons_of_mem _ he)
          exact ⟨rfl, hx⟩

theorem Lexeme.Stops.starts {l : Lexeme} {r : List Char} (h : l.Stops r) (z : List Char) :
    ∃ c cs, l.text.toList ++ z = c :: cs ∧ isBlank c = false := by
  obtain ⟨c, cs, ht, hc, _⟩ := h
  exact ⟨c, cs ++ z, by rw [ht]; rfl, hc⟩

namespace Token

/-- Where the first token of a scan stands. -/
theorem scan_eq_cons {pos : Position} {b : Bool} {cs : List Char} {t : Token} {ts : List Token}
    (h : scan pos b cs = t :: ts) :
    ∃ w r pos', cs = w ++ (t.text.toList ++ r) ∧ (∀ c ∈ w, isBlank c = true) ∧ t.Stops r ∧
      ts = scan pos' false r := by
  induction cs using scan_induction generalizing pos b with
  | nil =>
      rw [scan_nil] at h
      cases h
  | blank c cs hc ih =>
      rw [scan_blank hc] at h
      obtain ⟨w, r, pos', rfl, hw, hstops, hts⟩ := ih h
      refine ⟨c :: w, r, pos', rfl, fun d hd => ?_, hstops, hts⟩
      rcases List.mem_cons.1 hd with rfl | hd
      · exact hc
      · exact hw d hd
  | lexeme l r hl _ =>
      rw [scan_stops hl] at h
      cases h
      refine ⟨[], r, _, rfl, fun c hc => ?_, hl, rfl⟩
      cases hc

/-- A text that starts with the first token of its scan. -/
theorem scan_eq_cons_of_text {pos : Position} {b : Bool} {r : List Char} {t : Token}
    {ts : List Token} (h : scan pos b (t.text.toList ++ r) = t :: ts) :
    t.Stops r ∧ ∃ pos', ts = scan pos' false r := by
  obtain ⟨w, r', pos', heq, hw, hstops, hts⟩ := scan_eq_cons h
  obtain ⟨rfl, heq⟩ := append_blank_inj (w := []) heq (fun c hc => by cases hc) hw
    (hstops.starts r) (hstops.starts r')
  cases List.append_cancel_left heq
  exact ⟨hstops, pos', hts⟩

end Token

namespace Spacing

variable {s : Spacing} {ts us : List Token} {y : List Char}

theorem scan_tighten {k : Kind} {pos : Position}
    (h : Token.scan pos false (Token.spelling (s.tighten k ts) ++ y) = ts ++ us) :
    Token.Settled (s.tighten k ts) y ∧ ∃ pos', us = Token.scan pos' false y := by
  induction ts generalizing k pos with
  | nil => exact ⟨trivial, pos, h.symm⟩
  | cons t ts ih =>
      obtain ⟨w, r, pos', heq, hw, hstops, hts⟩ := Token.scan_eq_cons h
      have hspelling : Token.spelling (s.tighten k (t :: ts)) ++ y =
          (if t.spaced && !s.tight k t.kind then [' '] else []) ++
            (t.text.toList ++ (Token.spelling (s.tighten t.kind ts) ++ y)) := by
        simp [tighten, Token.spelling]
      rw [hspelling] at heq
      have hgap : ∀ c ∈ (if t.spaced && !s.tight k t.kind then [' '] else []), isBlank c = true := by
        split
        · exact List.all_eq_true.1 (by decide)
        · exact List.forall_mem_nil _
      obtain ⟨_, heq⟩ := append_blank_inj heq hgap hw (hstops.starts _) (hstops.starts r)
      cases List.append_cancel_left heq
      obtain ⟨hsettled, hus⟩ := ih hts.symm
      exact ⟨⟨hstops, hsettled⟩, hus⟩

/-- Tokens that read as the start of the text are settled there. -/
theorem scan_join {pos : Position} {b : Bool}
    (h : Token.scan pos b ((s.join ts).toList ++ y) = ts ++ us) (hne : ts ≠ []) :
    Token.Settled (s.tightened ts) y ∧ ∃ pos', us = Token.scan pos' false y := by
  cases ts with
  | nil => exact absurd rfl hne
  | cons t ts =>
      have hspelled : (s.join (t :: ts)).toList ++ y =
          t.text.toList ++ (Token.spelling (s.tighten t.kind ts) ++ y) := by
        rw [s.toList_join]
        simp [tightened, Token.spelled, Token.bare, Token.spelling, Token.spelling_unplaced]
      rw [hspelled] at h
      obtain ⟨hstops, pos', hts⟩ := Token.scan_eq_cons_of_text h
      obtain ⟨hsettled, hus⟩ := scan_tighten hts.symm
      exact ⟨⟨hstops, hsettled⟩, hus⟩

end Spacing

end TieredStyle.Css
