import TieredStyle.Proofs.Lexing.Literals
import TieredStyle.Proofs.Lexing.Scanned

/-!
# Joined texts

The joined text of some tokens is cut into the same tokens again, if each string literal has an end or comes last
and if no comment starts where blanks have been dropped.
-/
namespace TieredStyle.Css
open TieredStyle.Text

namespace Token

/-- Only the last token may be a string literal with no end. -/
def OpenLast (ts : List Token) : Prop := ∀ t ∈ ts.dropLast, t.isOpenLiteral = false

theorem openLast_cons {t : Token} {ts : List Token} :
    OpenLast (t :: ts) ↔ (t.isOpenLiteral = true → ts = []) ∧ OpenLast ts := by
  cases ts with
  | nil => simp [OpenLast]
  | cons u us => simp [OpenLast]

theorem openLast_of_forall {ts : List Token} (h : ∀ t ∈ ts, t.isOpenLiteral = false) : OpenLast ts :=
  fun t ht => h t (List.dropLast_subset _ ht)

theorem OpenLast.left {ts us : List Token} (h : OpenLast (ts ++ us)) : OpenLast ts := by
  induction ts with
  | nil =>
      intro t ht
      cases ht
  | cons t ts ih =>
      obtain ⟨hopen, hrest⟩ := openLast_cons.1 h
      exact openLast_cons.2 ⟨fun ho => (List.append_eq_nil_iff.1 (hopen ho)).1, ih hrest⟩

end Token

/-! ## Settled tokens -/

/-- A string literal with no end stops at the end of the text, and an exclamation mark before what is not blank. -/
theorem Lexeme.Stops.of_alike {l : Lexeme} {r r' : List Char} (h : l.Stops r) (hr : Alike r r')
    (hopen : l.isOpenLiteral = true → r' = [])
    (hblank : (∀ c ∈ r.head?, isBlank c = false) → ∀ c ∈ r'.head?, isBlank c = false) : l.Stops r' := by
  cases ho : l.isOpenLiteral with
  | true =>
      obtain ⟨q, cs, rfl, hq⟩ := h.literal ho
      apply stops_openLiteral
      rw [hopen ho, (literalBody_of_literalLength hq).literalLength_append]
      rfl
  | false => exact h.alike hr ho fun hb => hblank (h.of_isLoneBang hb)

namespace Token

theorem head?_spelling_scan {pos : Position} {cs : List Char} (h : ∀ c ∈ cs.head?, isBlank c = false) :
    (spelling (scan pos false cs)).head? = cs.head? := by
  cases cs with
  | nil =>
      rw [scan_nil]
      rfl
  | cons c cs =>
      obtain ⟨l, r, hcs, hl⟩ := exists_stops (h c rfl) cs
      obtain ⟨d, ds, htext, _⟩ := id hl
      rw [hcs, scan_stops hl]
      simp [spelling, htext]

theorem head?_spelling_spaced {pos : Position} {cs : List Char} :
    ∀ c ∈ (spelling (scan pos true cs)).head?, c = ' ' := by
  induction cs using scan_induction generalizing pos with
  | nil =>
      intro c hc
      rw [scan_nil] at hc
      cases hc
  | blank c cs hc ih =>
      rw [scan_blank hc]
      exact ih
  | lexeme l r hl _ =>
      intro c hc
      rw [scan_stops hl] at hc
      cases hc
      rfl

theorem settled_scan_of_openLast {pos : Position} {b : Bool} {cs : List Char}
    (h : OpenLast (scan pos b cs)) : Settled (scan pos b cs) [] := by
  induction cs using scan_induction generalizing pos b with
  | nil =>
      rw [scan_nil]
      trivial
  | blank c cs hc ih =>
      rw [scan_blank hc] at h ⊢
      exact ih h
  | lexeme l r hl ih =>
      rw [scan_stops hl] at h ⊢
      obtain ⟨hopen, hrest⟩ := openLast_cons.1 h
      refine ⟨?_, ih hrest⟩
      rw [List.append_nil]
      apply hl.of_alike (alike_spelling_scan _ r)
      · intro ho
        rw [hopen ho]
        rfl
      · intro hr
        rw [head?_spelling_scan hr]
        exact hr

end Token

namespace Spacing

variable {s : Spacing} {ts : List Token} {r : List Char}

/-- Dropping blanks puts none in front. -/
theorem head?_spelling_tighten (k : Kind) (h : Token.Settled ts r)
    (hblank : ∀ c ∈ (Token.spelling ts ++ r).head?, isBlank c = false) :
    ∀ c ∈ (Token.spelling (s.tighten k ts)).head?, isBlank c = false := by
  intro c hc
  cases ts with
  | nil => cases hc
  | cons t ts =>
      obtain ⟨d, ds, htext, hd, _⟩ := h.1
      cases hs : t.spaced with
      | true =>
          have hspace := hblank ' ' (by simp [Token.spelling, hs])
          cases hspace
      | false =>
          simp only [tighten, Token.spelling, hs, Bool.false_and, Bool.false_eq_true, ↓reduceIte, htext,
            List.nil_append, List.cons_append, List.head?_cons, Option.mem_some_iff] at hc
          rw [← hc]
          exact hd

theorem settled_tighten_of_openLast (k : Kind) (h : Token.Settled ts r) (hl : Token.OpenLast ts)
    (hr : Ends r) : Token.Settled (s.tighten k ts) [] := by
  induction ts generalizing k with
  | nil => trivial
  | cons t ts ih =>
      obtain ⟨hopen, hrest⟩ := Token.openLast_cons.1 hl
      refine ⟨?_, ih t.kind h.2 hrest⟩
      rcases Token.alike_spelling h hr ends_nil with ho | ha
      · exact (h.1.of_opens ho).2 _
      · apply h.1.of_alike ha
        · intro ho
          rw [hopen ho]
          rfl
        · intro hblank
          rw [List.append_nil]
          exact head?_spelling_tighten t.kind h.2 hblank

theorem settled_tightened_of_openLast (h : Token.Settled ts r) (hl : Token.OpenLast ts) (hr : Ends r) :
    Token.Settled (s.tightened ts) [] := by
  cases ts with
  | nil => trivial
  | cons t ts => exact settled_tighten_of_openLast (s := s) .delim h hl hr

end Spacing

/-! ## Comments -/

namespace Token

/-- What the tokens of a text spell has no comment, if the text has none. -/
theorem uncommented_spelling_scan {pos : Position} {b : Bool} {cs : List Char} (hu : Uncommented cs) :
    Uncommented (spelling (scan pos b cs)) := by
  induction cs using scan_induction generalizing pos b with
  | nil =>
      rw [scan_nil]
      exact .nil
  | blank c cs hc ih =>
      rw [scan_blank hc]
      exact ih hu.tail
  | lexeme l r hl ih =>
      obtain ⟨hleft, hright, hbetween⟩ := List.isChain_append.1 hu
      have htext : Uncommented (l.text.toList ++ spelling (scan (pos.skip l.text.toList) false r)) := by
        refine Uncommented.append hleft (ih hright) fun hlast hhead => ?_
        cases r with
        | nil =>
            rw [scan_nil] at hhead
            cases hhead
        | cons c r =>
            by_cases hc : isBlank c = true
            · rw [scan_blank hc] at hhead
              cases head?_spelling_spaced _ hhead
            · have hr : ∀ d ∈ (c :: r).head?, isBlank d = false := fun d hd => by
                cases hd
                simpa using hc
              rw [head?_spelling_scan hr] at hhead
              exact hbetween '/' hlast '*' hhead ⟨rfl, rfl⟩
      rw [scan_stops hl, spelling, List.append_assoc]
      exact htext.spaced

end Token

/-- Only a slash ends with a slash among the tokens after which blanks mean nothing, and it does so in values. -/
theorem Lexeme.Stops.slash_of_opens {l : Lexeme} {r : List Char} {s : Spacing} (h : l.Stops r)
    (ho : l.kind.opens = true ∨ s.separates l.kind = true) (hlast : l.text.toList.getLast? = some '/') :
    s = .value ∧ l.kind = .mark .slash := by
  have hmark : ∀ m, l.kind = .mark m → m = .slash := by
    intro m hm
    rw [h.text_of_mark hm] at hlast
    cases m <;> first | rfl | cases hlast
  rcases ho with ho | ho
  · rcases Spacing.function_or_mark_of_opens ho with hk | ⟨m, hm, _⟩
    · obtain ⟨c, cs, htext, _⟩ := h.text_of_function hk
      rw [htext, ← List.cons_append, List.getLast?_concat] at hlast
      cases hlast
    · rw [hm, hmark m hm] at ho
      cases ho
  · obtain ⟨m, hm, _⟩ := Spacing.exists_mark_of_separates ho
    rw [hm, hmark m hm] at ho ⊢
    cases s with
    | value => exact ⟨rfl, rfl⟩
    | selector => cases ho
    | params => cases ho

namespace Spacing

variable {s : Spacing} {ts : List Token} {r : List Char}

theorem spelling_tighten_cons (k : Kind) (t : Token) (ts : List Token) :
    Token.spelling (s.tighten k (t :: ts)) =
      (if t.spaced && !s.tight k t.kind then [' '] else []) ++
        (t.text.toList ++ Token.spelling (s.tighten t.kind ts)) := by
  rw [tighten, Token.spelling, List.append_assoc]

/-- A slash right before a star is where a comment can start, and only values drop the blanks there. -/
theorem uncommented_spelling_tighten (k : Kind) (h : Token.Settled ts r)
    (hu : Uncommented (Token.spelling ts)) (hp : s = .value → Token.Parted ts) :
    Uncommented (Token.spelling (s.tighten k ts)) := by
  induction ts generalizing k with
  | nil => exact .nil
  | cons t ts ih =>
      rw [Token.spelling, List.append_assoc] at hu
      obtain ⟨htext, hrest, hbetween⟩ := List.isChain_append.1 (List.isChain_append.1 hu).2.1
      have ih := ih t.kind h.2 hrest fun hs => List.IsChain.tail (hp hs)
      have hstart : Uncommented (t.text.toList ++ Token.spelling (s.tighten t.kind ts)) := by
        refine Uncommented.append htext ih fun hlast hhead => ?_
        cases ts with
        | nil => cases hhead
        | cons u us =>
            obtain ⟨c, cs, hc, _⟩ := id h.2.1
            rw [spelling_tighten_cons] at hhead
            split at hhead
            next => cases hhead
            next hgap =>
              have hstar : c = '*' := by simpa [hc] using hhead
              subst hstar
              cases hspaced : u.spaced with
              | false =>
                  refine hbetween '/' hlast '*' ?_ ⟨rfl, rfl⟩
                  simp [Token.spelling, hspaced, hc]
              | true =>
                  have hkind : u.kind = .mark .star :=
                    h.2.1.kind_of_head? (by decide) (by rw [hc]; rfl)
                  have htight : s.tight t.kind u.kind = true := by simpa [hspaced] using hgap
                  have ho : t.kind.opens = true ∨ s.separates t.kind = true := by
                    cases s <;> simpa [tight, hkind, Kind.closes, separates] using htight
                  obtain ⟨hs, hslash⟩ := h.1.slash_of_opens ho hlast
                  exact (List.isChain_cons_cons.1 (hp hs)).1 ⟨hslash, hkind⟩
      rw [spelling_tighten_cons]
      exact hstart.spaced

/-- In a value a slash and a star come together where no comment does. -/
theorem parted_of_uncommented (k : Kind) (h : Token.Settled ts r)
    (hu : Uncommented (Token.spelling (value.tighten k ts))) : Token.Parted ts := by
  induction ts generalizing k with
  | nil => exact .nil
  | cons t ts ih =>
      rw [spelling_tighten_cons] at hu
      obtain ⟨_, hrest, hbetween⟩ := List.isChain_append.1 (List.isChain_append.1 hu).2.1
      have ih := ih t.kind h.2 hrest
      cases ts with
      | nil => exact .singleton _
      | cons u us =>
          refine List.isChain_cons_cons.2 ⟨fun hkinds => ?_, ih⟩
          have hslash : t.kind = .mark .slash := hkinds.1
          have hstar : u.kind = .mark .star := hkinds.2
          refine hbetween '/' ?_ '*' ?_ ⟨rfl, rfl⟩
          · rw [h.1.text_of_mark hslash]
            rfl
          · rw [spelling_tighten_cons, h.2.1.text_of_mark hstar, hslash, tight]
            simp [separates, Mark.char]

theorem toList_join_cons (t : Token) (ts : List Token) :
    (s.join (t :: ts)).toList = t.text.toList ++ Token.spelling (s.tighten t.kind ts) := by
  rw [toList_join]
  simp [tightened, Token.spelled, Token.bare, Token.spelling, Token.spelling_unplaced]

theorem uncommented_join (h : Token.Settled ts r) (hu : Uncommented (Token.spelling ts))
    (hp : s = .value → Token.Parted ts) : Uncommented (s.join ts).toList := by
  cases ts with
  | nil => exact .nil
  | cons t ts =>
      have hspelling := uncommented_spelling_tighten .delim h hu hp
      rw [spelling_tighten_cons] at hspelling
      rw [toList_join_cons]
      exact (List.isChain_append.1 hspelling).2.1

theorem parted_of_uncommented_join (h : Token.Settled ts r) (hu : Uncommented (value.join ts).toList) :
    Token.Parted ts := by
  cases ts with
  | nil => exact .nil
  | cons t ts =>
      refine parted_of_uncommented .delim h ?_
      rw [toList_join_cons] at hu
      rw [spelling_tighten_cons]
      exact hu.spaced

/-! ## Cutting a joined text -/

theorem ofText_join (hsettled : Token.Settled (s.tightened ts) []) (hu : Uncommented (s.join ts).toList) :
    (Token.ofText (s.join ts)).map (·.kind) = ts.map (·.kind) ∧
      s.join (Token.ofText (s.join ts)) = s.join ts := by
  obtain ⟨us, pos, b, hscan, hbare⟩ := Token.cuts_spelled hsettled {} false
  rw [Token.scan_nil, List.append_nil, List.append_nil, ← toList_join] at hscan
  have hofText : Token.ofText (s.join ts) = us := by
    rw [Token.ofText, blankComments_of_uncommented hu, hscan]
  rw [hofText]
  refine ⟨(Token.kind_of_bare hbare).trans (kind_tightened ts), ?_⟩
  rw [join_of_bare hbare, ← String.toList_inj, toList_join, toList_join, tightened_tightened]

end Spacing
end TieredStyle.Css
