import TieredStyle.Proofs.Grammar.Retold
import TieredStyle.Proofs.Lexing.Commented
import TieredStyle.Proofs.Lexing.CutInto

/-!
# Blanks and comments between tokens

Where blanks or comments stand between two tokens, and before the first and behind the last, more of them change
nothing but the places of the tokens behind.
-/
namespace TieredStyle.Text.Position

/-- In the order of the lines, and of the columns on a line. -/
instance : LE Position := ⟨fun p q => p.line < q.line ∨ p.line = q.line ∧ p.column ≤ q.column⟩

instance (p q : Position) : Decidable (p ≤ q) :=
  inferInstanceAs (Decidable (p.line < q.line ∨ p.line = q.line ∧ p.column ≤ q.column))

theorem not_skip_le {cs : List Char} (h : cs ≠ []) (p : Position) : ¬p.skip cs ≤ p := by
  have hline := line_skip p cs
  rintro (hlt | ⟨heq, hle⟩)
  · omega
  · have hnone : '\n' ∉ cs := List.count_eq_zero.1 (by omega)
    have hcolumn := column_skip hnone p
    have hpos := List.length_pos_iff.2 h
    omega

/-- Of two starts of a text the one that leads no further is the start of the other. -/
theorem exists_append_of_skip_le {p : Position} {as bs cs ds : List Char} (h : as ++ cs = bs ++ ds)
    (hle : p.skip as ≤ p.skip bs) : ∃ ws, bs = as ++ ws ∧ cs = ws ++ ds := by
  rcases List.append_eq_append_iff.1 h with ⟨ws, hbs, hcs⟩ | ⟨ws, has, hds⟩
  · exact ⟨ws, hbs, hcs⟩
  · rw [has, skip_append] at hle
    obtain rfl : ws = [] := by
      by_contra hne
      exact not_skip_le hne _ hle
    exact ⟨[], by simpa using has.symm, by simpa using hds.symm⟩

end TieredStyle.Text.Position

namespace TieredStyle.Css
open TieredStyle.Text

namespace Token

variable {pos : Position} {b : Bool} {cs ds : List Char}

theorem blank_of_le_start (h : ∀ t ∈ (scan pos b (cs ++ ds)).head?, pos.skip cs ≤ t.start) :
    ∀ c ∈ cs, isBlank c = true := by
  induction cs generalizing pos b with
  | nil => exact List.forall_mem_nil _
  | cons c cs ih =>
      by_cases hc : isBlank c = true
      · rw [List.cons_append, scan_blank hc] at h
        exact List.forall_mem_cons.2 ⟨hc, ih h⟩
      · obtain ⟨l, r, htext, hl⟩ := exists_stops (by simpa using hc) (cs ++ ds)
        rw [List.cons_append, htext, scan_stops hl] at h
        exact absurd (h _ rfl) (Position.not_skip_le (List.cons_ne_nil c cs) pos)

/-- A text before whose first token blanks stand starts with a blank. -/
theorem ends_of_spaced (h : ∀ t ∈ (scan pos false cs).head?, t.spaced = true) : Ends cs := by
  cases cs with
  | nil => exact ends_nil
  | cons c cs =>
      by_cases hc : isBlank c = true
      · exact ends_cons.2 (isBreak_of_isBlank hc)
      · obtain ⟨l, r, htext, hl⟩ := exists_stops (by simpa using hc) cs
        rw [htext, scan_stops hl] at h
        cases h _ rfl

theorem unplaced_scan_of_spaced (pos' : Position) (h : ∀ t ∈ (scan pos b cs).head?, t.spaced = true) :
    (scan pos b cs).map unplaced = (scan pos' true cs).map unplaced := by
  cases cs with
  | nil => rw [scan_nil, scan_nil]
  | cons c cs =>
      by_cases hc : isBlank c = true
      · rw [scan_blank hc, scan_blank hc]
        exact unplaced_scan _ _ _ _
      · obtain ⟨l, r, htext, hl⟩ := exists_stops (by simpa using hc) cs
        rw [htext, scan_stops hl] at h
        obtain rfl : b = true := h _ rfl
        exact unplaced_scan _ _ _ _

theorem bare_append {ts us vs : List Token} (hne : ts ≠ []) (h : us.map unplaced = vs.map unplaced) :
    bare (ts ++ us) = bare (ts ++ vs) := by
  cases ts with
  | nil => exact absurd rfl hne
  | cons t ts => simp only [List.cons_append, bare, List.map_append, h]

theorem scan_of_blank {ws : List Char} (h : ∀ c ∈ ws, isBlank c = true) :
    scan pos b (ws ++ cs) = scan (pos.skip ws) (b || !ws.isEmpty) cs :=
  (CutInto.blanks h).scan

end Token

/-! ## Gaps -/

/-- The place behind a text once its comments are blanked. -/
def place (s : String) : Position := ({} : Position).skip (blankComments s.toList)

/-- Where the texts meet there is a gap between the tokens of the whole: the place is in no comment, each token ends
before it or starts behind it, and if there are tokens on both sides then something stands between them. -/
structure Gap (p q : String) : Prop where
  closed : inComment false p.toList = false
  flags : flagComments false (p ++ q).toList = flagComments false p.toList ++ flagComments false q.toList
  between : ∃ us vs, Token.ofText (p ++ q) = us ++ vs ∧ (∀ t ∈ us, t.stop ≤ place p) ∧
    (∀ t ∈ vs, place p ≤ t.start) ∧ (us = [] ∨ ∀ t ∈ vs.head?, t.spaced = true)

theorem Gap.opens {p q : String} (h : Gap p q) :
    (flagComments false p.toList).getLast? = some ('/', false) → q.toList.head? ≠ some '*' := by
  intro hlast hhead
  obtain ⟨ms, hms⟩ := List.getLast?_eq_some_iff.1 hlast
  obtain ⟨cs, hcs⟩ := List.head?_eq_some_iff.1 hhead
  have hflags := h.flags
  rw [hms, List.append_assoc, List.singleton_append] at hflags
  have hslash := flagComments_eq_append hflags
  rw [map_fst_flagComments, hcs, flagComments] at hslash
  cases hslash

namespace Token

variable {pos : Position} {us vs : List Token} {cs ds ws : List Char}

/-- Before the first token more blanks make no difference. -/
theorem bare_scan_before (hcs : ∀ c ∈ cs, isBlank c = true) (hws : ∀ c ∈ ws, isBlank c = true) :
    bare (scan pos false (cs ++ (ws ++ ds))) = bare (scan pos false (cs ++ ds)) := by
  rw [← List.append_assoc, scan_of_blank (List.forall_mem_append.2 ⟨hcs, hws⟩), scan_of_blank hcs]
  exact bare_scan _ _ _ _ ds

/-- In a gap behind a token more blanks make no difference. -/
theorem bare_scan_behind {t : Token} (hscan : scan pos false (cs ++ ds) = us ++ t :: vs)
    (hplain : ∀ u ∈ us ++ [t], u.isPlain = true) (hstop : t.stop ≤ pos.skip cs)
    (hstart : ∀ v ∈ vs.head?, pos.skip cs ≤ v.start) (hspaced : ∀ v ∈ vs.head?, v.spaced = true)
    (hws : ∀ c ∈ ws, isBlank c = true) (hne : ws ≠ []) :
    bare (scan pos false (cs ++ (ws ++ ds))) = bare (scan pos false (cs ++ ds)) := by
  obtain ⟨pre, r, htext, hcut, hpre, rfl⟩ := exists_cutInto hscan
  rw [hpre] at hstop
  obtain ⟨gap, rfl, rfl⟩ := Position.exists_append_of_skip_le htext.symm hstop
  rw [Position.skip_append] at hstart
  have hgap : ∀ c ∈ gap, isBlank c = true := blank_of_le_start hstart
  have hfilled : ∀ c ∈ gap ++ ws, isBlank c = true := List.forall_mem_append.2 ⟨hgap, hws⟩
  have halike : Alike (gap ++ ds) (gap ++ ws ++ ds) := by
    refine .ends (ends_of_spaced hspaced) ?_
    obtain ⟨c, cs, hcs⟩ := List.exists_cons_of_ne_nil (List.append_ne_nil_of_right_ne_nil gap hne)
    rw [hcs] at hfilled ⊢
    exact ends_cons.2 (isBreak_of_isBlank (hfilled c List.mem_cons_self))
  simp only [Lexeme.isPlain, Bool.and_eq_true, Bool.not_eq_true'] at hplain
  have hcut' := hcut.alike halike (fun u hu => (hplain u hu).1) (.inl fun u hu => (hplain u hu).2)
  have hscan' := hcut'.scan
  have hleft : pre ++ gap ++ (ws ++ ds) = pre ++ (gap ++ ws ++ ds) := by simp
  have hright : pre ++ gap ++ ds = pre ++ (gap ++ ds) := by simp
  rw [hleft, hright, hscan', hcut.scan]
  refine bare_append (by simp) ?_
  rw [unplaced_scan_of_spaced {} hspaced, scan_of_blank hgap, scan_of_blank hfilled]
  have hfilled_ne : gap ++ ws ≠ [] := List.append_ne_nil_of_right_ne_nil gap hne
  simp only [Bool.true_or, Bool.false_or, List.isEmpty_eq_false_iff.2 hfilled_ne, Bool.not_false]
  exact unplaced_scan _ _ _ _

end Token

/-- A filler in a gap leaves the tokens as they are, up to their places. -/
theorem Gap.bare_ofText {p q x : String} (h : Gap p q) (hx : Filler x.toList)
    (hplain : ∀ t ∈ Token.ofText (p ++ q), t.isPlain = true) :
    Token.bare (Token.ofText (p ++ x ++ q)) = Token.bare (Token.ofText (p ++ q)) := by
  obtain ⟨us, vs, htokens, hus, hvs, hbetween⟩ := h.between
  have hwhole : blankComments (p ++ q).toList = blankComments p.toList ++ blankComments q.toList := by
    have hnone : Filler [] := filler_of_blank (List.forall_mem_nil _)
    rw [String.toList_append]
    exact hnone.blankComments_between h.closed h.opens
  have hfilled : blankComments (p ++ x ++ q).toList =
      blankComments p.toList ++ (blankComments x.toList ++ blankComments q.toList) := by
    rw [String.toList_append, String.toList_append, List.append_assoc]
    exact hx.blankComments_between h.closed h.opens
  rw [Token.ofText, Token.ofText, hwhole, hfilled]
  rw [Token.ofText, hwhole] at htokens hplain
  have hstart : ∀ t ∈ vs.head?, place p ≤ t.start := fun t ht => hvs t (List.mem_of_mem_head? ht)
  rcases List.eq_nil_or_concat us with rfl | ⟨us, t, rfl⟩
  · rw [List.nil_append] at htokens
    rw [← htokens] at hstart
    exact Token.bare_scan_before (Token.blank_of_le_start hstart) hx.blankComments
  · have hspaced := hbetween.resolve_left (by simp)
    by_cases hne : blankComments x.toList = []
    · rw [hne, List.nil_append]
    · rw [List.concat_eq_append] at hus htokens
      rw [htokens] at hplain
      refine @Token.bare_scan_behind _ us vs _ _ _ t ?_ (fun u hu => ?_) ?_ hstart hspaced
        hx.blankComments hne
      · rw [htokens, List.append_assoc, List.singleton_append]
      · exact hplain u (List.mem_append_left vs hu)
      · exact hus t (by simp)

/-- A filler in a gap changes nothing that a stylesheet says, and no error but its place, unless string literals have
no end or exclamation marks stand alone. -/
theorem Sheet.read_filler {p q x : String} (h : Gap p q) (hx : Filler x.toList)
    (hplain : ∀ t ∈ Token.ofText (p ++ q), t.isPlain = true) :
    (read (p ++ x ++ q)).mapError ParseError.placeless = (read (p ++ q)).mapError ParseError.placeless :=
  read_of_bare (h.bare_ofText hx hplain)

/-- A comment in the gap between two words of a selector, behind the comment that is there. -/
theorem Sheet.read_filler_comment : Gap ".a /*b*/" "\n.c\x7bd:e\x7d" ∧ Filler "/*\n*/".toList ∧
    (∀ t ∈ Token.ofText (".a /*b*/" ++ "\n.c\x7bd:e\x7d"), t.isPlain = true) ∧
      (read (".a /*b*/" ++ "/*\n*/" ++ "\n.c\x7bd:e\x7d")).mapError ParseError.placeless =
        (read (".a /*b*/" ++ "\n.c\x7bd:e\x7d")).mapError ParseError.placeless := by
  have hbetween : ∃ us vs, Token.ofText (".a /*b*/" ++ "\n.c\x7bd:e\x7d") = us ++ vs ∧
      (∀ t ∈ us, t.stop ≤ place ".a /*b*/") ∧ (∀ t ∈ vs, place ".a /*b*/" ≤ t.start) ∧
        (us = [] ∨ ∀ t ∈ vs.head?, t.spaced = true) :=
    ⟨_, _, (List.take_append_drop 2 _).symm, by decide +kernel, by decide +kernel, by decide +kernel⟩
  have hgap : Gap ".a /*b*/" "\n.c\x7bd:e\x7d" := ⟨by decide +kernel, by decide +kernel, hbetween⟩
  have hbody : ¬['*', '/'] <:+: ['\n'] := by decide
  have hfiller : Filler "/*\n*/".toList := filler_comment hbody
  have hplain : ∀ t ∈ Token.ofText (".a /*b*/" ++ "\n.c\x7bd:e\x7d"), t.isPlain = true := by decide +kernel
  exact ⟨hgap, hfiller, hplain, read_filler hgap hfiller hplain⟩

end TieredStyle.Css
