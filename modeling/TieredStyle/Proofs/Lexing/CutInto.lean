import TieredStyle.Proofs.Lexing.Literals
import TieredStyle.Proofs.Lexing.Placed

/-!
# Scans of texts put together

In front of another text the first one is cut into the same tokens as in front of a text alike, if none of them
looks further than that. What follows it is scanned from the place that it leads to.
-/
namespace TieredStyle.Css
open TieredStyle.Text

namespace Token

/-- The place right after the token. -/
def stop (t : Token) : Position := t.start.skip t.text.toList

/-- In front of `r` the text is cut into these tokens; the flags tell whether blanks stand before it and whether they
stand right before `r`. -/
inductive CutInto (r : List Char) : Position → Bool → List Char → List Token → Bool → Prop
  | nil {pos : Position} {b : Bool} : CutInto r pos b [] [] b
  | blank {pos : Position} {b b' : Bool} {c : Char} {cs : List Char} {ts : List Token} :
      isBlank c = true → CutInto r (pos.advance c) true cs ts b' → CutInto r pos b (c :: cs) ts b'
  | lexeme {pos : Position} {b b' : Bool} {l : Lexeme} {cs : List Char} {ts : List Token} :
      l.Stops (cs ++ r) → CutInto r (pos.skip l.text.toList) false cs ts b' →
      CutInto r pos b (l.text.toList ++ cs) (⟨l, b, pos⟩ :: ts) b'

variable {r r' cs : List Char} {pos : Position} {b b' : Bool} {t : Token} {ts us vs : List Token}

namespace CutInto

theorem scan (h : CutInto r pos b cs ts b') :
    scan pos b (cs ++ r) = ts ++ Token.scan (pos.skip cs) b' r := by
  induction h with
  | nil => rfl
  | blank hc _ ih => rw [List.cons_append, scan_blank hc, ih, Position.skip_cons]
  | lexeme hl _ ih => rw [List.append_assoc, scan_stops hl, ih, Position.skip_append, List.cons_append]

/-- The same tokens in front of a text alike. -/
theorem alike (h : CutInto r pos b cs ts b') (hr : Alike r r') (hopen : ∀ t ∈ ts, t.isOpenLiteral = false)
    (hbang : (∀ t ∈ ts, t.isLoneBang = false) ∨ ∀ c ∈ r'.head?, isBlank c = false) :
    CutInto r' pos b cs ts b' := by
  induction h with
  | nil => exact .nil
  | blank hc _ ih => exact .blank hc (ih hopen hbang)
  | @lexeme pos b _ l cs ts hl _ ih =>
      have hopen' := List.forall_mem_cons.1 hopen
      refine .lexeme (hl.alike (.append_left cs hr) hopen'.1 fun hb => ?_)
        (ih hopen'.2 (hbang.imp_left fun h => (List.forall_mem_cons.1 h).2))
      rcases hbang with hbang | hbang
      · have hnone : l.isLoneBang = false := hbang _ List.mem_cons_self
        rw [hnone] at hb
        cases hb
      · have hblank := hl.of_isLoneBang hb
        cases cs with
        | nil => exact hbang
        | cons c cs => exact hblank

theorem blanks (h : ∀ c ∈ cs, isBlank c = true) : CutInto r pos b cs [] (b || !cs.isEmpty) := by
  induction cs generalizing pos b with
  | nil =>
      rw [List.isEmpty_nil, Bool.not_true, Bool.or_false]
      exact .nil
  | cons c cs ih =>
      have hrest := @ih (pos.advance c) true fun d hd => h d (List.mem_cons_of_mem _ hd)
      rw [Bool.true_or] at hrest
      rw [List.isEmpty_cons, Bool.not_false, Bool.or_true]
      exact .blank (h c List.mem_cons_self) hrest

/-- Where there is no token there are blanks at most. -/
theorem of_nil (h : CutInto r pos b cs [] b') : (∀ c ∈ cs, isBlank c = true) ∧ b' = (b || !cs.isEmpty) := by
  generalize hts : ([] : List Token) = ts at h
  induction h with
  | nil => exact ⟨List.forall_mem_nil _, by simp⟩
  | blank hc _ ih =>
      obtain ⟨hcs, hb⟩ := ih hts
      exact ⟨List.forall_mem_cons.2 ⟨hc, hcs⟩, by simp [hb]⟩
  | lexeme => cases hts

/-- Blanks follow the last token unless it ends where the text does. -/
theorem spaced_iff (h : CutInto r pos b cs (ts ++ [t]) b') : b' = true ↔ t.stop ≠ pos.skip cs := by
  generalize hus : ts ++ [t] = us at h
  induction h generalizing ts with
  | nil => cases ts <;> cases hus
  | blank _ _ ih => exact ih hus
  | @lexeme pos b b' l cs us _ hcs ih =>
      rw [Position.skip_append]
      cases ts with
      | nil =>
          obtain ⟨rfl, rfl⟩ := List.cons.inj hus
          obtain ⟨_, rfl⟩ := hcs.of_nil
          cases cs with
          | nil => simp [stop]
          | cons c cs =>
              have hne := Position.skip_ne (List.cons_ne_nil c cs) (pos.skip l.text.toList)
              simpa [stop] using hne.symm
      | cons u ts => exact ih (List.cons.inj hus).2

end CutInto

/-! ## Scans that are cut -/

theorem cutInto_scan (pos : Position) (b : Bool) (cs : List Char) :
    ∃ b', CutInto [] pos b cs (scan pos b cs) b' := by
  induction cs using scan_induction generalizing pos b with
  | nil =>
      rw [scan_nil]
      exact ⟨b, .nil⟩
  | blank c cs hc ih =>
      obtain ⟨b', h⟩ := ih (pos.advance c) true
      rw [scan_blank hc]
      exact ⟨b', .blank hc h⟩
  | lexeme l r hl ih =>
      obtain ⟨b', h⟩ := ih (pos.skip l.text.toList) false
      rw [scan_stops hl]
      refine ⟨b', .lexeme ?_ h⟩
      rwa [List.append_nil]

/-- The tokens of a scan up to one of them are what the text is cut into up to the end of that one. -/
theorem exists_cutInto (h : scan pos b cs = us ++ t :: vs) : ∃ pre r, cs = pre ++ r ∧
    CutInto r pos b pre (us ++ [t]) false ∧ t.stop = pos.skip pre ∧ vs = scan (pos.skip pre) false r := by
  induction cs using scan_induction generalizing pos b us with
  | nil =>
      rw [scan_nil] at h
      simp at h
  | blank c cs hc ih =>
      rw [scan_blank hc] at h
      obtain ⟨pre, r, rfl, hcut, hstop, hvs⟩ := ih h
      exact ⟨c :: pre, r, rfl, .blank hc hcut, hstop, hvs⟩
  | lexeme l cs hl ih =>
      rw [scan_stops hl] at h
      cases us with
      | nil =>
          obtain ⟨rfl, rfl⟩ := List.cons.inj h
          have hcut : CutInto cs pos b (l.text.toList ++ []) [⟨l, b, pos⟩] false := .lexeme hl .nil
          rw [List.append_nil] at hcut
          exact ⟨l.text.toList, cs, rfl, hcut, rfl, rfl⟩
      | cons u us =>
          obtain ⟨rfl, hrest⟩ := List.cons.inj h
          obtain ⟨pre, r, rfl, hcut, hstop, hvs⟩ := ih hrest
          refine ⟨l.text.toList ++ pre, r, (List.append_assoc _ _ _).symm, .lexeme ?_ hcut, ?_, ?_⟩
          · exact hl
          · rw [Position.skip_append]
            exact hstop
          · rw [Position.skip_append]
            exact hvs

/-! ## What does not depend on the place -/

theorem unplaced_scan (pos pos' : Position) (b : Bool) (cs : List Char) :
    (scan pos b cs).map unplaced = (scan pos' b cs).map unplaced := by
  induction cs using scan_induction generalizing pos pos' b with
  | nil => rw [scan_nil, scan_nil]
  | blank c cs hc ih =>
      rw [scan_blank hc, scan_blank hc]
      exact ih _ _ _
  | lexeme l r hl ih =>
      rw [scan_stops hl, scan_stops hl, List.map_cons, List.map_cons, ih]
      rfl

theorem bare_scan (pos pos' : Position) (b b' : Bool) (cs : List Char) :
    bare (scan pos b cs) = bare (scan pos' b' cs) := by
  induction cs using scan_induction generalizing pos pos' b b' with
  | nil => rw [scan_nil, scan_nil]
  | blank c cs hc ih =>
      rw [scan_blank hc, scan_blank hc]
      exact ih _ _ _ _
  | lexeme l r hl _ =>
      rw [scan_stops hl, scan_stops hl, bare, bare, unplaced_scan _ (pos'.skip l.text.toList)]

/-! ## Settled tokens -/

/-- Tokens that are settled at the end are so in front of a break that is not blank. -/
theorem Settled.before (h : Settled ts []) (hopen : ∀ t ∈ ts, t.isOpenLiteral = false) (hr : Ends r)
    (hblank : ∀ c ∈ r.head?, isBlank c = false) : Settled ts r := by
  induction ts with
  | nil => trivial
  | cons t ts ih =>
      obtain ⟨ho, hopen⟩ := List.forall_mem_cons.1 hopen
      have halike : Alike (spelling ts ++ []) (spelling ts ++ r) := .append_left _ (.ends ends_nil hr)
      refine ⟨h.1.alike halike ho fun hb => ?_, ih h.2 hopen⟩
      have hrest := h.1.of_isLoneBang hb
      cases hts : spelling ts with
      | nil => exact hblank
      | cons c cs =>
          rw [hts] at hrest
          exact hrest

/-- Blanks are part of no spelling but before its tokens. -/
theorem scan_spelled (h : Settled ts r) (hne : ts ≠ []) (pos : Position) (b : Bool) :
    ∃ us pos', scan pos b (spelled ts ++ r) = us ++ scan pos' false r ∧ bare us = bare ts := by
  cases ts with
  | nil => exact absurd rfl hne
  | cons t ts =>
      obtain ⟨us, pos', hus, hmap⟩ := scan_spelling h.2 (pos.skip t.text.toList)
      have hspelled : spelled (t :: ts) ++ r = t.text.toList ++ (spelling ts ++ r) := by
        simp [spelled, bare, spelling, spelling_unplaced]
      refine ⟨⟨t.toLexeme, b, pos⟩ :: us, pos', ?_, by rw [bare, bare, hmap]⟩
      rw [hspelled, scan_stops h.1, hus, List.cons_append]

end Token

end TieredStyle.Css
