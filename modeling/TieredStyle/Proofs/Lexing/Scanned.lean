import TieredStyle.Proofs.Lexing.Ink

/-!
# The tokens of a scan

The tokens of a text are settled as they stand, and they keep apart: no comment starts inside one of
them, and only a slash ends with a slash and only a star starts with one.
-/
namespace TieredStyle.Css
open TieredStyle.Text

/-! ## Settled scans -/

namespace Token

theorem ends_spelling_scan (pos : Position) (cs : List Char) :
    Ends (spelling (scan pos true cs)) := by
  induction cs using scan_induction generalizing pos with
  | nil =>
      rw [scan_nil]
      exact ends_nil
  | blank c cs hc ih =>
      rw [scan_blank hc]
      exact ih _
  | lexeme l r hl _ =>
      rw [scan_stops hl]
      exact ends_cons.2 (by decide)

/-- A text and what its tokens spell are alike, since blanks are spelled by a blank. -/
theorem alike_spelling_scan (pos : Position) (cs : List Char) :
    Alike cs (spelling (scan pos false cs)) := by
  induction cs using scan_induction generalizing pos with
  | nil =>
      rw [scan_nil]
      exact .refl []
  | blank c cs hc _ =>
      rw [scan_blank hc]
      exact .ends (ends_cons.2 (isBreak_of_isBlank hc)) (ends_spelling_scan _ cs)
  | lexeme l r hl ih =>
      rw [scan_stops hl]
      exact (ih _).append_left l.text.toList

theorem settled_scan {pos : Position} {b : Bool} {cs : List Char}
    (h : ∀ t ∈ scan pos b cs, t.isPlain = true) : Settled (scan pos b cs) [] := by
  induction cs using scan_induction generalizing pos b with
  | nil =>
      rw [scan_nil]
      trivial
  | blank c cs hc ih =>
      rw [scan_blank hc] at h ⊢
      exact ih h
  | lexeme l r hl ih =>
      rw [scan_stops hl] at h ⊢
      refine ⟨?_, ih fun t ht => h t (List.mem_cons_of_mem _ ht)⟩
      rw [List.append_nil]
      exact hl.alike_of_isPlain (h _ List.mem_cons_self) (alike_spelling_scan _ r)

end Token

/-! ## The last character of a lexeme -/

theorem getLast?_of_literalLength {q : Char} {cs : List Char} (r : List Char)
    (h : literalLength q (cs ++ r) = (cs.length, true)) : cs.getLast? = some q := by
  obtain ⟨body, rfl, _⟩ := exists_of_literalLength h
  exact List.getLast?_concat

theorem getLast?_of_quotedFrom {q : Quote} {k : Kind} {cs r : List Char}
    (h : quotedFrom q (cs ++ r) = (k, cs.length)) (hk : k ≠ .delim) :
    cs.getLast? = some q.char := by
  cases hl : (literalLength q.char (cs ++ r)).2 with
  | true => exact getLast?_of_literalLength r (Prod.ext (congrArg Prod.snd h) hl)
  | false =>
      simp only [quotedFrom, hl] at h
      exact absurd (congrArg Prod.fst h).symm hk

/-- After its first character a lexeme that is no literal and starts with no exclamation mark has no
break in it. -/
theorem munch_lt_of_break {c d : Char} {cs r : List Char} (hbang : c ≠ '!') (hdouble : c ≠ '"')
    (hsingle : c ≠ '\'') (hd : isBreak d = true) : (munch c (cs ++ d :: r)).2 ≤ cs.length := by
  have halike : Alike (cs ++ d :: r) (cs ++ []) :=
    .append_left cs (.ends (ends_cons.2 hd) ends_nil)
  rw [munch_alike halike hbang hdouble hsingle, List.append_nil]
  exact munch_le c cs

theorem getLast?_of_important {cs r : List Char} (h : munch '!' (cs ++ r) = (.important, cs.length)) :
    cs.getLast? ≠ some '/' := by
  obtain ⟨w, word, rfl, _, hword⟩ := parts_of_important h
  intro hlast
  have hne : word ≠ [] := by
    intro he
    rw [he] at hword
    cases hword
  rw [List.getLast?_append_of_ne_nil w hne] at hlast
  have hmap := congrArg List.getLast? hword
  rw [List.getLast?_map, hlast] at hmap
  revert hmap
  decide

/-- No comment starts inside the lexeme, and only a slash or a star has one at its edges. -/
structure Lexeme.Apart (l : Lexeme) : Prop where
  nonempty : l.text.toList ≠ []
  uncommented : Uncommented l.text.toList
  slash : l.text.toList.getLast? = some '/' → l.kind = .mark .slash
  star : l.text.toList.head? = some '*' → l.kind = .mark .star

/-- A plain lexeme does not end with a slash, unless it is one. -/
theorem Lexeme.Stops.getLast?_ne_slash {l : Lexeme} {r : List Char} (h : l.Stops r)
    (hplain : l.isPlain = true) {c : Char} {cs : List Char} (ht : l.text.toList = c :: cs) :
    cs.getLast? ≠ some '/' := by
  obtain ⟨c', cs', ht', _, hm⟩ := h
  cases ht.symm.trans ht'
  simp only [isPlain, isOpenLiteral, isLoneBang, Bool.and_eq_true, Bool.not_eq_true',
    Bool.and_eq_false_iff, ht, List.head?_cons] at hplain
  obtain ⟨hopen, hbang⟩ := hplain
  have hquoted : ∀ q : Quote, c = q.char → quotedFrom q (cs ++ r) = (l.kind, cs.length) →
      cs.getLast? ≠ some '/' := by
    intro q hq hm
    have hkind : l.kind ≠ .delim := by
      intro hk
      rcases hopen with hopen | hopen
      · simp [hk] at hopen
      · cases q <;> simp [hq, Quote.char] at hopen
    rw [getLast?_of_quotedFrom hm hkind]
    cases q <;> decide
  intro hlast
  by_cases h₁ : c = '!'
  · subst h₁
    rcases munch_bang (cs ++ r) with hk | hk
    · rw [hm] at hk
      rw [show l.kind = .important from hk] at hm
      exact getLast?_of_important hm hlast
    · rw [hm] at hk
      rcases hbang with hbang | hbang
      · simp [show l.kind = .delim from hk] at hbang
      · simp at hbang
  by_cases h₂ : c = '"'
  · subst h₂
    exact hquoted .double rfl hm hlast
  by_cases h₃ : c = '\''
  · subst h₃
    exact hquoted .single rfl hm hlast
  obtain ⟨ds, rfl⟩ := List.getLast?_eq_some_iff.1 hlast
  have hlt : (munch c (ds ++ '/' :: r)).2 ≤ ds.length :=
    munch_lt_of_break h₁ h₂ h₃ (by decide)
  rw [List.append_assoc, List.cons_append, List.nil_append] at hm
  rw [hm, List.length_append] at hlt
  exact absurd hlt (Nat.not_succ_le_self _)

/-- A lexeme that starts with the character of a mark is the mark, unless that is a dot. -/
theorem Lexeme.Stops.kind_of_head? {l : Lexeme} {r : List Char} (h : l.Stops r) {m : Mark} (hdot : m ≠ .dot)
    (hhead : l.text.toList.head? = some m.char) : l.kind = .mark m := by
  obtain ⟨c, cs, ht, _, hm⟩ := h
  rw [ht] at hhead
  cases hhead
  rw [munch_mark hdot] at hm
  exact (congrArg Prod.fst hm).symm

theorem Lexeme.Stops.apart {l : Lexeme} {r : List Char} (h : l.Stops r) (hplain : l.isPlain = true)
    (hu : Uncommented l.text.toList) : l.Apart := by
  refine ⟨h.text_ne_nil, hu, fun hlast => ?_, fun hhead => h.kind_of_head? (by decide) hhead⟩
  obtain ⟨c, cs, ht, _⟩ := id h
  rw [ht] at hlast
  cases cs with
  | nil =>
      refine h.kind_of_head? (by decide) ?_
      rw [ht]
      exact hlast
  | cons d ds =>
      rw [List.getLast?_cons_cons] at hlast
      exact absurd hlast (h.getLast?_ne_slash hplain ht)

namespace Token

theorem apart_scan {pos : Position} {b : Bool} {cs : List Char} (hu : Uncommented cs)
    (h : ∀ t ∈ scan pos b cs, t.isPlain = true) : ∀ t ∈ scan pos b cs, t.Apart := by
  induction cs using scan_induction generalizing pos b with
  | nil =>
      rw [scan_nil]
      intro t ht
      cases ht
  | blank c cs hc ih =>
      rw [scan_blank hc] at h ⊢
      exact ih hu.tail h
  | lexeme l r hl ih =>
      rw [scan_stops hl] at h ⊢
      obtain ⟨hleft, hright, _⟩ := List.isChain_append.1 hu
      intro t ht
      rcases List.mem_cons.1 ht with rfl | ht
      · exact hl.apart (h _ List.mem_cons_self) hleft
      · exact ih hright (fun u hu => h u (List.mem_cons_of_mem _ hu)) t ht

/-- No slash stands right before a star. -/
def Parted (ts : List Token) : Prop :=
  (ts.map (·.kind)).IsChain fun a b => ¬(a = .mark .slash ∧ b = .mark .star)

/-- Tokens that keep apart spell a text without comments. -/
theorem uncommented_spelling {ts : List Token} (h : ∀ t ∈ ts, t.Apart) (hp : Parted ts) :
    Uncommented (spelling ts) := by
  induction ts with
  | nil => exact .nil
  | cons t ts ih =>
      have ih := ih (fun u hu => h u (List.mem_cons_of_mem _ hu)) (List.IsChain.tail hp)
      have ht := h t List.mem_cons_self
      have htext : Uncommented (t.text.toList ++ spelling ts) := by
        refine ht.uncommented.append ih fun hlast hhead => ?_
        cases ts with
        | nil => cases hhead
        | cons u us =>
            have hu := h u (List.mem_cons_of_mem _ List.mem_cons_self)
            have hhead' : u.text.toList.head? = some '*' := by
              cases hs : u.spaced with
              | true => simp [spelling, hs] at hhead
              | false =>
                  obtain ⟨c, cs, hc⟩ := List.exists_cons_of_ne_nil hu.nonempty
                  simpa [spelling, hs, hc] using hhead
            exact (List.isChain_cons_cons.1 hp).1 ⟨ht.slash hlast, hu.star hhead'⟩
      rw [spelling, List.append_assoc]
      exact htext.spaced

end Token

end TieredStyle.Css
