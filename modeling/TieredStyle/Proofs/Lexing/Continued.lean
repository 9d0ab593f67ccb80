import TieredStyle.Proofs.Lexing.Commented
import TieredStyle.Proofs.Lexing.Literals

/-!
# Scans that go on in another line

Behind a line feed a scan goes on as if the text started there. The tokens before it stay, but that a string literal
with no end, or an exclamation mark that starts no `!important`, takes in more of its line if it comes last.
-/
namespace TieredStyle.Css
open TieredStyle.Text

variable {cs u r : List Char} {l : Lexeme}

theorem Lexeme.kind_of_not_isPlain (h : l.isPlain = false) : l.kind = .delim := by
  by_contra hk
  simp [isPlain, isOpenLiteral, isLoneBang, hk] at h

namespace Lexeme.Stops

/-- A string literal with no end stops wherever nothing more can be read for it. -/
theorem of_literal (h : l.Stops cs) (ho : l.isOpenLiteral = true)
    (hr : ∀ q : Quote, literalLength q.char r = (0, false)) : l.Stops r := by
  obtain ⟨q, ds, rfl, hq⟩ := h.literal ho
  apply stops_openLiteral
  rw [(literalBody_of_literalLength hq).literalLength_append, hr]
  rfl

/-- At the end of a text a string literal with no end takes in the rest of its line. -/
theorem literal_line (h : l.Stops []) (ho : l.isOpenLiteral = true) (hu : ∀ q : Quote, LiteralBody q.char u) :
    ∃ l' : Lexeme, l'.text.toList = l.text.toList ++ u ∧ l'.kind = .delim ∧ l'.Stops ('\n' :: r) := by
  obtain ⟨q, ds, rfl, hq⟩ := h.literal ho
  refine ⟨⟨.delim, String.ofList (q.char :: (ds ++ u))⟩, by simp, rfl, stops_openLiteral ?_⟩
  rw [List.append_assoc, (literalBody_of_literalLength hq).literalLength_append, (hu q).literalLength_append,
    List.length_append]
  rfl

/-- At the end of a text an exclamation mark takes in the blanks that come. -/
theorem loneBang_line (h : l.Stops []) (hb : l.isLoneBang = true) (hu : ∀ c ∈ u, isBlank c = true)
    (hr : ∀ c ∈ r.head?, isBlank c = false) (himportant : startsImportant r = false) :
    ∃ l' : Lexeme, l'.text.toList = l.text.toList ++ u ∧ l'.kind = .delim ∧ l'.Stops r := by
  obtain ⟨c, ds, ht, hc, hm⟩ := h
  simp only [isLoneBang, Bool.and_eq_true, decide_eq_true_eq, ht, List.head?_cons, Option.some.injEq] at hb
  obtain ⟨hk, rfl⟩ := hb
  rw [hk, munch_loneBang] at hm
  refine ⟨⟨.delim, String.ofList ('!' :: (ds ++ u))⟩, by simp [ht], rfl, '!', ds ++ u, String.toList_ofList, hc, ?_⟩
  exact munch_loneBang.2 ⟨List.forall_mem_append.2 ⟨hm.1, hu⟩, hr, himportant⟩

end Lexeme.Stops

/-- The same token, or a `delim` instead of one. -/
def Token.Resumes (t u : Token) : Prop := u = t ∨ t.kind = .delim ∧ u.kind = .delim

section

variable (hu : ∀ c ∈ u, c = ' ') (hr : ∀ c ∈ r.head?, isBlank c = false) (himportant : startsImportant r = false)

include hu

theorem literalBody_spaces (q : Quote) : LiteralBody q.char u := by
  induction u with
  | nil => exact .nil
  | cons c u ih =>
      obtain ⟨rfl, hu'⟩ := List.forall_mem_cons.1 hu
      exact .plain (by decide) (by decide) (by cases q <;> decide) (ih hu')

theorem isBlank_of_space : ∀ c ∈ u ++ ['\n'], isBlank c = true := by
  refine List.forall_mem_append.2 ⟨fun c hc => ?_, List.forall_mem_singleton.2 rfl⟩
  rw [hu c hc]
  decide

/-- A lexeme before the end of a text stops where it did, if the line goes on with blanks that it cannot escape. -/
theorem Lexeme.Stops.line (h : l.Stops cs) (hplain : cs = [] → l.isPlain = true)
    (hescape : u = [] ∨ cs.getLast? ≠ some '\\') : l.Stops (cs ++ (u ++ '\n' :: r)) := by
  cases ho : l.isOpenLiteral with
  | true =>
      rcases h.of_isOpenLiteral ho with rfl | ⟨cs, rfl⟩ | rfl | ⟨cs, rfl⟩
      · have := hplain rfl
        rw [Lexeme.isPlain, ho] at this
        cases this
      · exact h.of_literal ho fun q => rfl
      · obtain rfl : u = [] := hescape.resolve_right fun hlast => hlast rfl
        exact h.of_literal ho fun q => rfl
      · exact h.of_literal ho fun q => rfl
  | false =>
      have halike : Alike (cs ++ []) (cs ++ (u ++ '\n' :: r)) := by
        refine .append_left cs (.ends ends_nil ?_)
        cases u with
        | nil => exact ends_cons.2 (by decide)
        | cons c u => exact ends_cons.2 (isBreak_of_isBlank (isBlank_of_space hu c List.mem_cons_self))
      rw [List.append_nil] at halike
      refine h.alike halike ho fun hb => ?_
      have hrest := h.of_isLoneBang hb
      cases cs with
      | nil =>
          have := hplain rfl
          simp [Lexeme.isPlain, hb] at this
      | cons c cs => exact hrest

include hr himportant

/-- Any other lexeme at the end of a text takes in more of the line. -/
theorem Lexeme.Stops.line_end (h : l.Stops []) (hplain : l.isPlain = false) : ∃ (l' : Lexeme) (w : List Char),
    l.text.toList ++ (u ++ '\n' :: r) = l'.text.toList ++ (w ++ r) ∧ (∀ c ∈ w, isBlank c = true) ∧
      l'.Stops (w ++ r) ∧ l.kind = .delim ∧ l'.kind = .delim := by
  have hk := Lexeme.kind_of_not_isPlain hplain
  cases ho : l.isOpenLiteral with
  | true =>
      obtain ⟨l', htext, hk', hstops⟩ := h.literal_line (r := r) ho (literalBody_spaces hu)
      exact ⟨l', ['\n'], by simp [htext], List.forall_mem_singleton.2 rfl, hstops, hk, hk'⟩
  | false =>
      have hb : l.isLoneBang = true := by simpa [Lexeme.isPlain, ho] using hplain
      obtain ⟨l', htext, hk', hstops⟩ := h.loneBang_line hb (isBlank_of_space hu) hr himportant
      exact ⟨l', [], by simp [htext], List.forall_mem_nil _, hstops, hk, hk'⟩

/-- Behind spaces and a line feed a scan goes on with what stands there. -/
theorem Token.scan_line {pos : Position} {b : Bool} (hescape : u = [] ∨ cs.getLast? ≠ some '\\') :
    ∃ ts pos' b', scan pos b (cs ++ (u ++ '\n' :: r)) = ts ++ scan pos' b' r ∧
      List.Forall₂ Resumes (scan pos b cs) ts := by
  induction cs using scan_induction generalizing pos b with
  | nil =>
      obtain ⟨pos', b', hscan⟩ := scan_blanks (isBlank_of_space hu) pos b r
      refine ⟨[], pos', b', ?_, by rw [scan_nil]; exact .nil⟩
      simpa using hscan
  | blank c cs hc ih =>
      obtain ⟨ts, pos', b', hscan, hts⟩ := @ih (pos.advance c) true
        (hescape.imp_right fun h hlast => h (by rw [List.getLast?_cons, hlast]; rfl))
      refine ⟨ts, pos', b', ?_, ?_⟩
      · rw [List.cons_append, scan_blank hc, hscan]
      · rwa [scan_blank hc]
  | lexeme l cs hl ih =>
      by_cases hplain : cs = [] → l.isPlain = true
      · have hescape' : u = [] ∨ cs.getLast? ≠ some '\\' :=
          hescape.imp_right fun h hlast => h (by rw [List.getLast?_append, hlast]; rfl)
        obtain ⟨ts, pos', b', hscan, hts⟩ := @ih (pos.skip l.text.toList) false hescape'
        refine ⟨⟨l, b, pos⟩ :: ts, pos', b', ?_, ?_⟩
        · rw [List.append_assoc, scan_stops (hl.line hu hplain hescape'), hscan, List.cons_append]
        · rw [scan_stops hl]
          exact .cons (.inl rfl) hts
      · obtain ⟨rfl, hplain⟩ := Classical.not_imp.1 hplain
        obtain ⟨l', w, htext, hw, hstops, hk, hk'⟩ := hl.line_end hu hr himportant (by simpa using hplain)
        obtain ⟨pos', b', hscan⟩ := scan_blanks hw (pos.skip l'.text.toList) false r
        refine ⟨[⟨l', b, pos⟩], pos', b', ?_, ?_⟩
        · rw [List.append_nil, htext, scan_stops hstops, hscan]
          rfl
        · rw [scan_stops hl, scan_nil]
          exact .cons (.inr ⟨hk, hk'⟩) .nil

end

end TieredStyle.Css
