import TieredStyle.Proofs.Lexing.Respacing

/-!
# String literals with no end

A string literal with no end takes in the whole line, but for a backslash that ends it. So it is the last
token of a fragment, up to such a backslash, and it takes in whatever is put behind the fragment.
-/
namespace TieredStyle.Css
open TieredStyle.Text

theorem literalLength_eq_zero {q : Char} {r : List Char} (h : literalLength q r = (0, false)) :
    r = [] ∨ (∃ r', r = '\n' :: r') ∨ r = ['\\'] ∨ ∃ r', r = '\\' :: '\n' :: r' := by
  have hlen := congrArg Prod.fst h
  rw [literalLength.eq_def] at hlen
  split at hlen
  · exact .inl rfl
  · exact .inr (.inl ⟨_, rfl⟩)
  · exact .inr (.inr (.inl rfl))
  · exact .inr (.inr (.inr ⟨_, rfl⟩))
  · simp at hlen
  · split at hlen <;> simp at hlen

theorem Lexeme.Stops.literal {l : Lexeme} {r : List Char} (h : l.Stops r)
    (ho : l.isOpenLiteral = true) : ∃ q : Quote, ∃ cs, l = ⟨.delim, String.ofList (q.char :: cs)⟩ ∧
      literalLength q.char (cs ++ r) = (cs.length, false) := by
  obtain ⟨kind, text⟩ := l
  obtain ⟨c, cs, ht, _, hm⟩ := h
  simp only [isOpenLiteral, Bool.and_eq_true, decide_eq_true_eq, Bool.or_eq_true, ht,
    List.head?_cons, Option.some.injEq] at ho
  have hopen : ∀ q : Quote, quotedFrom q (cs ++ r) = (.delim, cs.length) →
      literalLength q.char (cs ++ r) = (cs.length, false) := by
    intro q hq
    have hclosed := congrArg Prod.fst hq
    simp only [quotedFrom] at hclosed
    split at hclosed
    · cases hclosed
    next hl => exact Prod.ext (congrArg Prod.snd hq) (by simpa using hl)
  obtain ⟨rfl, hc⟩ := ho
  have htext : text = String.ofList (c :: cs) := by rw [← String.toList_inj, ht, String.toList_ofList]
  rcases hc with rfl | rfl
  · exact ⟨.double, cs, by rw [htext]; rfl, hopen .double hm⟩
  · exact ⟨.single, cs, by rw [htext]; rfl, hopen .single hm⟩

theorem stops_openLiteral {q : Quote} {cs r : List Char}
    (h : literalLength q.char (cs ++ r) = (cs.length, false)) :
    (⟨.delim, String.ofList (q.char :: cs)⟩ : Lexeme).Stops r := by
  refine ⟨q.char, cs, String.toList_ofList, by cases q <;> decide, ?_⟩
  have hmunch : munch q.char (cs ++ r) = quotedFrom q (cs ++ r) := by cases q <;> rfl
  rw [hmunch, quotedFrom, h]
  rfl

/-- A string literal with no end stops at the end of the text, of the line, or before a backslash
there. -/
theorem Lexeme.Stops.of_isOpenLiteral {l : Lexeme} {r : List Char} (h : l.Stops r)
    (ho : l.isOpenLiteral = true) :
    r = [] ∨ (∃ r', r = '\n' :: r') ∨ r = ['\\'] ∨ ∃ r', r = '\\' :: '\n' :: r' := by
  obtain ⟨q, cs, _, hq⟩ := h.literal ho
  have hr := (literalBody_of_literalLength hq).literalLength_append r
  rw [hq] at hr
  refine literalLength_eq_zero (q := q.char) (Prod.ext ?_ (congrArg Prod.snd hr).symm)
  have := congrArg Prod.fst hr
  simp only at this ⊢
  omega

/-- An exclamation mark takes the blanks after it. -/
theorem Lexeme.Stops.of_isLoneBang {l : Lexeme} {r : List Char} (h : l.Stops r)
    (hb : l.isLoneBang = true) : ∀ c ∈ r.head?, isBlank c = false := by
  obtain ⟨c, cs, ht, _, hm⟩ := h
  simp only [isLoneBang, Bool.and_eq_true, decide_eq_true_eq, ht, List.head?_cons,
    Option.some.injEq] at hb
  obtain ⟨hk, rfl⟩ := hb
  rw [hk] at hm
  exact (munch_loneBang.1 hm).2.1

theorem Lexeme.Stops.text_of_backslash {l : Lexeme} {r cs : List Char} (h : l.Stops r)
    (ht : l.text.toList = '\\' :: cs) : cs = [] := by
  obtain ⟨c, cs', ht', _, hm⟩ := h
  cases ht.symm.trans ht'
  have hmunch : ∀ z, munch '\\' z = (.delim, 0) := by
    intro z
    have hrun : runLength Char.isDigit ('\\' :: z) = 0 := by
      rw [runLength_cons]
      rfl
    have hnumeral : numeralLength ('\\' :: z) = 0 := by simp [numeralLength, hrun]
    rw [munch, hnumeral]
    rfl
  rw [hmunch] at hm
  exact List.eq_nil_of_length_eq_zero (Prod.mk.inj hm).2.symm

namespace Token

variable {t : Token} {ts : List Token} {y : List Char}

/-- What tokens spell in front of a text starts with no line feed, if the text does not. -/
theorem head?_spelling (h : Settled ts y) (hy : y.head? ≠ some '\n') :
    (spelling ts ++ y).head? ≠ some '\n' := by
  cases ts with
  | nil => exact hy
  | cons t ts =>
      rw [spelling, List.append_assoc, List.append_assoc]
      split
      · simp
      · obtain ⟨c, cs, htext, hc, _⟩ := h.1
        rw [htext]
        intro he
        cases he
        cases hc

/-- After a string literal with no end there is nothing but a backslash. -/
theorem spelling_after_openLiteral (h : Settled (t :: ts) y) (ho : t.isOpenLiteral = true)
    (hy : ∀ c ∈ y.head?, c ≠ '\n' ∧ c ≠ '\\') : spelling ts ++ y = [] ∨ spelling ts ++ y = ['\\'] := by
  have hline : y.head? ≠ some '\n' := fun he => (hy _ he).1 rfl
  rcases h.1.of_isOpenLiteral ho with he | ⟨_, he⟩ | he | ⟨r, he⟩
  · exact .inl he
  · exact absurd (by rw [he]; rfl) (head?_spelling h.2 hline)
  · exact .inr he
  -- The backslash would be a token of its own, and the line feed would come after it.
  · exfalso
    cases ts with
    | nil =>
        rw [spelling, List.nil_append] at he
        exact (hy _ (by rw [he]; rfl)).2 rfl
    | cons u us =>
        rw [spelling, List.append_assoc, List.append_assoc] at he
        split at he
        · cases he
        · obtain ⟨c, cs, htext, _⟩ := h.2.1
          rw [htext, List.nil_append, List.cons_append] at he
          obtain ⟨rfl, hrest⟩ := List.cons.inj he
          rw [h.2.1.text_of_backslash htext, List.nil_append] at hrest
          exact head?_spelling h.2.2 hline (by rw [hrest]; rfl)

end Token

end TieredStyle.Css
