import TieredStyle.Proofs.Lexing.Aligned
import TieredStyle.Proofs.Lexing.Identifiers
import TieredStyle.Proofs.Lexing.Literals
import TieredStyle.Proofs.Printing.Legible

/-!
# Any tail is like another

Tokens that are settled in front of one tail are settled in front of every tail of its sort: no string
literal with no end is among them, and what else they can take in no tail starts with. So a text that is
once cut into its own tokens is always cut so.
-/
namespace TieredStyle.Css
open TieredStyle.Text

theorem Tail.exists_cons {spaced : Bool} {r : List Char} (h : Tail spaced r) :
    ∃ c cs, r = c :: cs ∧ c ≠ '\n' ∧ c ≠ '\\' ∧ isBlank c = spaced := by
  cases h with
  | @flush c cs hc =>
      refine ⟨c, cs, rfl, ?_⟩
      simp only [List.mem_cons, List.not_mem_nil, or_false] at hc
      rcases hc with rfl | rfl | rfl | rfl <;> decide
  | spaced cs => exact ⟨' ', cs, rfl, by decide⟩

namespace Token

variable {spaced : Bool} {ts : List Token} {y r : List Char}

theorem isOpenLiteral_of_tail {t : Token} (h : Settled (t :: ts) y) (hy : Tail spaced y) :
    t.isOpenLiteral = false := by
  obtain ⟨c, cs, rfl, hc, hb, _⟩ := hy.exists_cons
  cases ho : t.isOpenLiteral with
  | false => rfl
  | true =>
      have hlast := spelling_after_openLiteral h ho fun d hd => by
        cases hd
        exact ⟨hc, hb⟩
      rcases hlast with he | he
      · simp at he
      · rcases List.append_eq_singleton_iff.1 he with ⟨_, he⟩ | ⟨_, he⟩
        · exact absurd (List.cons.inj he).1 hb
        · cases he

theorem settled_of_ends (h : Settled ts y) (hy : Tail spaced y) (hr : Ends r)
    (hhead : ∀ c ∈ r.head?, isBlank c = spaced) : Settled ts r := by
  induction ts with
  | nil => trivial
  | cons t ts ih =>
      have halike : Alike (spelling ts ++ y) (spelling ts ++ r) := .append_left _ (.ends hy.ends hr)
      refine ⟨h.1.alike halike (isOpenLiteral_of_tail h hy) fun hb => ?_, ih h.2⟩
      have hblank := h.1.of_isLoneBang hb
      obtain ⟨c, cs, rfl, _, _, hc⟩ := hy.exists_cons
      cases hts : spelling ts with
      | nil =>
          rw [hts] at hblank
          have hspaced := hblank c rfl
          rw [hc] at hspaced
          rw [hspaced] at hhead
          exact hhead
      | cons e es =>
          rw [hts] at hblank
          exact hblank

theorem settled_of_tail (h : Settled ts y) (hy : Tail spaced y) (hr : Tail spaced r) :
    Settled ts r := by
  refine settled_of_ends h hy hr.ends fun c hc => ?_
  obtain ⟨d, ds, rfl, _, _, hd⟩ := hr.exists_cons
  cases hc
  exact hd

end Token

/-- A text in front of a tail from which it is read as itself. -/
theorem cut_of_scan {s : Spacing} {P : List Kind → Prop} {spaced : Bool} {ts us : List Token}
    {y : List Char} {pos : Position} {b : Bool} (hu : Uncommented (s.join ts).toList)
    (hP : P (ts.map (·.kind))) (hy : Tail spaced y)
    (h : Token.scan pos b ((s.join ts).toList ++ y) = ts ++ us) : Cut s P spaced (s.join ts) := by
  refine ⟨hu, s.tightened ts, fun r hr => ?_, s.tightened_tightened ts, s.toList_join ts, ?_⟩
  · cases ts with
    | nil => trivial
    | cons t ts =>
        exact Token.settled_of_tail (Spacing.scan_join h (List.cons_ne_nil t ts)).1 hy hr
  · rw [s.kind_tightened]
    exact hP

theorem scan_after_join {s : Spacing} {ts us : List Token} {y : List Char} {pos : Position} {b : Bool}
    (h : Token.scan pos b ((s.join ts).toList ++ y) = ts ++ us) :
    ∃ pos' b', us = Token.scan pos' b' y := by
  cases ts with
  | nil => exact ⟨pos, b, h.symm⟩
  | cons t ts =>
      obtain ⟨_, pos', hus⟩ := Spacing.scan_join h (List.cons_ne_nil t ts)
      exact ⟨pos', false, hus⟩

/-! ## Reading a text on its own -/

theorem exists_tail (spaced : Bool) : ∃ r, Tail spaced r := by
  cases spaced with
  | false => exact ⟨_, .flush [] List.mem_cons_self⟩
  | true => exact ⟨_, .spaced []⟩

/-- A text that is cut in front of a tail is cut at its own end too. -/
theorem Cut.readValue {spaced : Bool} {x : String} (h : Cut .value (Passes endsValue 0) spaced x) :
    readValue x = .ok ⟨x, false⟩ := by
  obtain ⟨hu, ts, hts, htight, hx, hpasses⟩ := h
  obtain ⟨r, hr⟩ := exists_tail spaced
  have hsettled : Token.Settled ts [] :=
    Token.settled_of_ends (hts r hr) hr ends_nil fun c hc => by cases hc
  obtain ⟨us, pos, b, hscan, hbare⟩ := Token.cuts_spelled hsettled {} false
  rw [Token.scan_nil, List.append_nil, List.append_nil, ← hx] at hscan
  have hjoin : Spacing.value.join us = x := by
    rw [Spacing.join_of_bare hbare, ← String.toList_inj, Spacing.toList_join, htight, hx]
  have hcollect : collect endsValue 0 us = (us, []) := by
    rw [← Token.kind_of_bare hbare] at hpasses
    have hcollect : collect endsValue 0 (us ++ []) = (us, []) :=
      collect_of_passes hpasses fun t ht => by cases ht
    rwa [List.append_nil] at hcollect
  rw [Css.readValue, Token.ofText, blankComments_of_uncommented hu, hscan, takeValue, hcollect]
  simp only [takeImportant, hjoin]
  rfl

/-- The texts of a legible declaration read as they are, the value without its mark. -/
theorem Declaration.Legible.read {f : Format} {d : Declaration} (h : d.Legible f) :
    readProperty d.property = .ok d.property ∧ readValue d.value.text = .ok ⟨d.value.text, false⟩ :=
  ⟨readProperty_of_stops (h.property []), h.value.readValue⟩

end TieredStyle.Css
