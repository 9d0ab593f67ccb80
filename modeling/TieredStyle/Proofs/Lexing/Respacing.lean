import Mathlib.Tactic.Tauto
import TieredStyle.Proofs.Lexing.Scan

/-!
# Respacing a fragment

The normalized text of a fragment spells its tokens with fewer blanks between them. Where blanks are
dropped, the token before cannot take in anything more or the token after starts with a break, so the
tokens stay settled.
-/
namespace TieredStyle.Css

/-! ## The texts of marks and functions -/

namespace Lexeme.Stops

variable {l : Lexeme} {r : List Char}

theorem munched (h : l.Stops r) :
    ∃ c cs, l.text.toList = c :: cs ∧ Munched c (cs ++ r) l.kind cs.length := by
  obtain ⟨c, cs, ht, _, hm⟩ := h
  have := Css.munched c (cs ++ r)
  rw [hm] at this
  exact ⟨c, cs, ht, this⟩

theorem text_of_mark (h : l.Stops r) {m : Mark} (hk : l.kind = .mark m) :
    l.text.toList = [m.char] := by
  obtain ⟨c, cs, ht, hm⟩ := h.munched
  rw [hk] at hm
  generalize hn : cs.length = n at hm
  cases hm with
  | mark hc => rw [ht, hc, List.eq_nil_of_length_eq_zero hn]

theorem text_of_important (h : l.Stops r) (hk : l.kind = .important) :
    ∃ cs, l.text.toList = '!' :: cs ∧ munch '!' (cs ++ r) = (.important, cs.length) := by
  obtain ⟨c, cs, ht, _, hm⟩ := h
  have hc : c = '!' := by
    have := Css.munched c (cs ++ r)
    rw [hm, hk] at this
    generalize cs.length = n at this
    cases this
    assumption
  subst hc
  rw [hk] at hm
  exact ⟨cs, ht, hm⟩

theorem text_of_keyword (h : l.Stops r) (hk : l.kind = .atKeyword) :
    ∃ cs, l.text.toList = '@' :: cs ∧ munch '@' (cs ++ r) = (.atKeyword, cs.length) := by
  obtain ⟨c, cs, ht, _, hm⟩ := h
  have hc : c = '@' := by
    have := Css.munched c (cs ++ r)
    rw [hm, hk] at this
    generalize cs.length = n at this
    cases this
    assumption
  subst hc
  rw [hk] at hm
  exact ⟨cs, ht, hm⟩

theorem text_of_function (h : l.Stops r) (hk : l.kind = .function) :
    ∃ c cs, l.text.toList = c :: (cs ++ ['(']) ∧ (c = '-' ∨ isNameStart c = true) := by
  obtain ⟨c, cs, ht, hm⟩ := h.munched
  rw [hk] at hm
  generalize hn : cs.length = n at hm
  cases hm with
  | @function n hc hp =>
      refine ⟨c, cs.take n, ?_, hc⟩
      rw [List.head?_drop, List.getElem?_append_left (by omega)] at hp
      have hcs : cs.take n ++ ['('] = cs := by
        have := List.take_add_one (l := cs) (i := n)
        rw [hp, ← hn, List.take_length] at this
        exact this.symm
      rw [ht, hcs]

end Lexeme.Stops

theorem munch_mark {m : Mark} (h : m ≠ .dot) (z : List Char) : munch m.char z = (.mark m, 0) := by
  have hnumeral : ∀ c : Char, c.isDigit = false → c ≠ '.' → numeralLength (c :: z) = 0 := by
    intro c hd hdot
    have h0 : runLength Char.isDigit (c :: z) = 0 := by rw [runLength_cons, hd]; rfl
    simp [numeralLength, h0, hdot]
  have hd : m.char.isDigit = false := by cases m <;> decide
  have hdot : m.char ≠ '.' := by
    intro he
    cases m <;> first | exact h rfl | cases he
  have hs : isNameStart m.char = false := by cases m <;> decide
  have hne : m.char ≠ '!' ∧ m.char ≠ '@' ∧ m.char ≠ '#' ∧ m.char ≠ Quote.double.char ∧
      m.char ≠ Quote.single.char ∧ m.char ≠ '-' := by cases m <;> decide
  obtain ⟨h₁, h₂, h₃, h₄, h₅, h₆⟩ := hne
  unfold munch
  rw [if_neg h₁, if_neg h₂, if_neg h₃, if_neg h₄, if_neg h₅, if_neg h₆, hs, hnumeral _ hd hdot,
    Mark.ofChar?_char]
  rfl

theorem stops_mark {m : Mark} (h : m ≠ .dot) (r : List Char) :
    (⟨.mark m, String.singleton m.char⟩ : Lexeme).Stops r :=
  ⟨m.char, [], String.toList_singleton _, by cases m <;> decide, munch_mark h r⟩

namespace Spacing

/-- The marks beside which blanks mean nothing are barriers, and no dots. -/
theorem exists_mark_of_separates {s : Spacing} {k : Kind} (h : s.separates k = true) :
    ∃ m, k = .mark m ∧ m ≠ .dot ∧ isBreak m.char = true := by
  unfold separates at h
  split at h <;> first | exact ⟨_, rfl, by decide, by decide⟩ | cases h

theorem exists_mark_of_closes {k : Kind} (h : k.closes = true) :
    ∃ m, k = .mark m ∧ m ≠ .dot ∧ isBreak m.char = true := by
  unfold Kind.closes at h
  split at h <;> first | exact ⟨_, rfl, by decide, by decide⟩ | cases h

theorem function_or_mark_of_opens {k : Kind} (h : k.opens = true) :
    k = .function ∨ ∃ m, k = .mark m ∧ m ≠ .dot ∧ isBarrier m.char = true := by
  unfold Kind.opens at h
  split at h
  · exact .inl rfl
  · exact .inr ⟨_, rfl, by decide, by decide⟩
  · exact .inr ⟨_, rfl, by decide, by decide⟩
  · cases h

end Spacing

/-- A token after which blanks mean nothing ends with a barrier and stops before anything. -/
theorem Lexeme.Stops.of_opens {l : Lexeme} {r : List Char} (h : l.Stops r) {s : Spacing}
    (ho : l.kind.opens = true ∨ s.separates l.kind = true) :
    (∃ cs c, l.text.toList = cs ++ [c] ∧ isBarrier c = true) ∧ ∀ r', l.Stops r' := by
  have hmark : ∀ m, l.kind = .mark m → m ≠ .dot → isBarrier m.char = true →
      (∃ cs c, l.text.toList = cs ++ [c] ∧ isBarrier c = true) ∧ ∀ r', l.Stops r' := by
    intro m hk hm hb
    have ht := h.text_of_mark hk
    refine ⟨⟨[], m.char, ht, hb⟩, fun r' => ⟨m.char, [], ht, ?_, ?_⟩⟩
    · cases m <;> decide
    · rw [hk]
      exact munch_mark hm r'
  rcases ho with ho | ho
  · rcases Spacing.function_or_mark_of_opens ho with hk | ⟨m, hk, hm, hb⟩
    · obtain ⟨c, cs, ht, hc⟩ := h.text_of_function hk
      refine ⟨⟨c :: cs, '(', ht, by decide⟩, fun r' => ?_⟩
      obtain ⟨c', cs', ht', hb', hm'⟩ := h
      cases ht.symm.trans ht'
      refine ⟨c, _, ht, hb', ?_⟩
      have hne : ∀ d : Char, isNameStart d = false → d ≠ '-' → c ≠ d := by
        intro d hd hd' he
        rcases hc with hc | hc
        · exact hd' (he ▸ hc)
        · rw [he, hd] at hc
          cases hc
      have ha : Alike (cs ++ ['('] ++ r) (cs ++ ['('] ++ r') := by
        simp only [List.append_assoc]
        exact .append_left cs (.barrier (by decide))
      rw [← munch_alike ha (hne _ (by decide) (by decide)) (hne _ (by decide) (by decide))
        (hne _ (by decide) (by decide))]
      exact hm'
    · exact hmark m hk hm hb
  · obtain ⟨m, hk, hm, hb⟩ := Spacing.exists_mark_of_separates ho
    exact hmark m hk hm (isBarrier_of_isBreak hb)

/-- A token before which blanks mean nothing starts with a break. -/
theorem Lexeme.Stops.ends_of_closes {l : Lexeme} {r : List Char} (h : l.Stops r) {s : Spacing}
    (hc : l.kind.closes = true ∨ s.separates l.kind = true) (r' : List Char) :
    Ends (l.text.toList ++ r') := by
  have hmark : ∃ m, l.kind = .mark m ∧ m ≠ .dot ∧ isBreak m.char = true := by
    rcases hc with hc | hc
    · exact Spacing.exists_mark_of_closes hc
    · exact Spacing.exists_mark_of_separates hc
  obtain ⟨m, hk, _, hb⟩ := hmark
  rw [h.text_of_mark hk]
  exact ends_cons.2 hb

/-! ## Dropping blanks -/

namespace Spacing

variable {s : Spacing}

/-- The tokens after one of kind `k`, with no blanks where they mean nothing. -/
def tighten (s : Spacing) (k : Kind) : List Token → List Token
  | [] => []
  | t :: ts => { t with spaced := t.spaced && !s.tight k t.kind } :: s.tighten t.kind ts

/-- The tokens of a fragment, with no blanks where they mean nothing. -/
def tightened (s : Spacing) : List Token → List Token
  | [] => []
  | t :: ts => t :: s.tighten t.kind ts

theorem tighten_tighten (k : Kind) (ts : List Token) :
    s.tighten k (s.tighten k ts) = s.tighten k ts := by
  induction ts generalizing k with
  | nil => rfl
  | cons t ts ih => simp only [tighten, ih, Bool.and_assoc, Bool.and_self]

theorem tightened_tightened (ts : List Token) : s.tightened (s.tightened ts) = s.tightened ts := by
  cases ts with
  | nil => rfl
  | cons t ts => simp only [tightened, tighten_tighten]

theorem kind_tighten (k : Kind) (ts : List Token) :
    (s.tighten k ts).map (·.kind) = ts.map (·.kind) := by
  induction ts generalizing k with
  | nil => rfl
  | cons t ts ih => simp only [tighten, List.map_cons, ih]

theorem kind_tightened (ts : List Token) : (s.tightened ts).map (·.kind) = ts.map (·.kind) := by
  cases ts with
  | nil => rfl
  | cons t ts => simp only [tightened, List.map_cons, kind_tighten]

theorem tighten_unplaced (k : Kind) (ts : List Token) :
    s.tighten k (ts.map Token.unplaced) = (s.tighten k ts).map Token.unplaced := by
  induction ts generalizing k with
  | nil => rfl
  | cons t ts ih =>
      simp only [List.map_cons, tighten]
      rw [show (Token.unplaced t).kind = t.kind from rfl, ih]
      rfl

theorem bare_tightened (ts : List Token) :
    Token.bare (s.tightened ts) = s.tightened (Token.bare ts) := by
  cases ts with
  | nil => rfl
  | cons t ts => simp only [tightened, Token.bare, tighten_unplaced]

/-- The normalized text is what the tokens spell with no blanks where they mean nothing. -/
theorem toList_join (ts : List Token) : (s.join ts).toList = Token.spelled (s.tightened ts) := by
  match ts with
  | [] => rfl
  | [t] => simp [join, tightened, tighten, Token.spelled, Token.bare, Token.spelling]
  | t :: u :: us =>
      have ih := toList_join (u :: us)
      simp only [tightened, tighten, Token.spelled, Token.bare, Token.spelling, List.map_cons,
        Token.spelling_unplaced] at ih ⊢
      rw [join, String.toList_append, String.toList_append, ih]
      simp only [gap, Token.unplaced]
      split <;> simp_all

theorem join_of_bare {ts us : List Token} (h : Token.bare ts = Token.bare us) :
    s.join ts = s.join us := by
  rw [← String.toList_inj, toList_join, toList_join, Token.spelled, Token.spelled, bare_tightened,
    bare_tightened, h]

end Spacing

namespace Token

/-- What the tokens after `t` spell is alike with and without the blanks that mean nothing, unless `t`
itself is one after which blanks mean nothing. -/
theorem alike_spelling {s : Spacing} {t : Token} {ts : List Token} {r r' : List Char}
    (h : Settled (t :: ts) r) (hr : Ends r) (hr' : Ends r') :
    (t.kind.opens = true ∨ s.separates t.kind = true) ∨
      Alike (spelling ts ++ r) (spelling (s.tighten t.kind ts) ++ r') := by
  induction ts generalizing t with
  | nil => exact .inr (.ends hr hr')
  | cons u us ih =>
      have hblank : ∀ cs, Ends (' ' :: cs) := fun cs => ends_cons.2 (by decide)
      have htext : Alike (u.text.toList ++ (spelling us ++ r))
          (u.text.toList ++ (spelling (s.tighten u.kind us) ++ r')) := by
        rcases ih h.2 with ho | ha
        · obtain ⟨⟨cs, c, hcs, hc⟩, _⟩ := h.2.1.of_opens ho
          rw [hcs, List.append_assoc, List.append_assoc]
          exact .append_left _ (.barrier hc)
        · exact .append_left _ ha
      have hspelling : spelling (u :: us) ++ r =
          (if u.spaced then [' '] else []) ++ (u.text.toList ++ (spelling us ++ r)) := by
        simp [spelling]
      have hspelling' : spelling (s.tighten t.kind (u :: us)) ++ r' =
          (if u.spaced && !s.tight t.kind u.kind then [' '] else []) ++
            (u.text.toList ++ (spelling (s.tighten u.kind us) ++ r')) := by
        simp [spelling, Spacing.tighten]
      rw [hspelling, hspelling']
      by_cases hu : u.spaced = true
      · by_cases ht : s.tight t.kind u.kind = true
        · simp only [hu, ht, Bool.not_true, Bool.and_false, ↓reduceIte, List.cons_append,
            List.nil_append, Bool.false_eq_true]
          simp only [Spacing.tight, Bool.or_eq_true] at ht
          by_cases hclose : u.kind.closes = true ∨ s.separates u.kind = true
          · exact .inr (.ends (hblank _) (h.2.1.ends_of_closes hclose _))
          · exact .inl (by tauto)
        · simp only [hu, ht, Bool.not_false, Bool.and_true, ↓reduceIte, List.cons_append,
            List.nil_append]
          exact .inr (.ends (hblank _) (hblank _))
      · simp only [hu, Bool.false_and, ↓reduceIte, List.nil_append, Bool.false_eq_true]
        exact .inr htext

end Token

/-- Nothing past its own text decides where the lexeme stops but what is alike. -/
def Lexeme.isPlain (l : Lexeme) : Bool := !l.isOpenLiteral && !l.isLoneBang

theorem Lexeme.Stops.alike_of_isPlain {l : Lexeme} {r r' : List Char} (h : l.Stops r)
    (hl : l.isPlain = true) (hr : Alike r r') : l.Stops r' := by
  simp only [Lexeme.isPlain, Bool.and_eq_true, Bool.not_eq_true'] at hl
  refine h.alike hr hl.1 fun hb => ?_
  rw [hl.2] at hb
  cases hb

theorem Token.stops_tighten {s : Spacing} {t : Token} {ts : List Token} {r r' : List Char}
    (h : Settled (t :: ts) r) (ht : t.isPlain = true) (hr : Ends r) (hr' : Ends r') :
    t.Stops (spelling (s.tighten t.kind ts) ++ r') := by
  rcases alike_spelling h hr hr' with ho | ha
  · exact (h.1.of_opens ho).2 _
  · exact h.1.alike_of_isPlain ht ha

namespace Spacing

variable {s : Spacing} {ts : List Token} {r r' : List Char}

theorem settled_tighten (k : Kind) (h : Token.Settled ts r) (hplain : ∀ t ∈ ts, t.isPlain = true)
    (hr : Ends r) (hr' : Ends r') : Token.Settled (s.tighten k ts) r' := by
  induction ts generalizing k with
  | nil => trivial
  | cons t ts ih =>
      refine ⟨Token.stops_tighten h (hplain t List.mem_cons_self) hr hr', ?_⟩
      exact ih t.kind h.2 fun u hu => hplain u (List.mem_cons_of_mem _ hu)

theorem settled_tightened (h : Token.Settled ts r) (hplain : ∀ t ∈ ts, t.isPlain = true)
    (hr : Ends r) (hr' : Ends r') : Token.Settled (s.tightened ts) r' := by
  cases ts with
  | nil => trivial
  | cons t ts =>
      refine ⟨Token.stops_tighten h (hplain t List.mem_cons_self) hr hr', ?_⟩
      exact settled_tighten t.kind h.2 (fun u hu => hplain u (List.mem_cons_of_mem _ hu)) hr hr'

theorem join_ne_empty {s : Spacing} {t : Token} {r : List Char} (h : t.Stops r) (ts : List Token) :
    s.join (t :: ts) ≠ "" := by
  intro he
  have htext : t.text.toList ≠ [] := h.text_ne_nil
  cases ts with
  | nil =>
      rw [join] at he
      exact htext (by rw [he]; rfl)
  | cons u us =>
      have hlist := congrArg String.toList he
      rw [join, String.toList_append, String.toList_append] at hlist
      exact htext (List.append_eq_nil_iff.1 (List.append_eq_nil_iff.1 hlist).1).1

end Spacing
end TieredStyle.Css
