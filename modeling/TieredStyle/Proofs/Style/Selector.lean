import TieredStyle.Proofs.Grammar.Fragment
import TieredStyle.Proofs.Lexing.Aligned
import TieredStyle.Proofs.Lexing.Rejoined
import TieredStyle.PseudoState

/-!
# Selectors with a state

A selector that reads as itself reads as itself again with a state behind it: either the state is cut off
as a colon and a name, or the selector ends in a string literal with no end, which takes the state in.
-/
namespace TieredStyle.PseudoState

theorem key_ne_base {p : PseudoState} (h : p ≠ .base) : p.key ≠ base.key := by
  cases p with
  | base => exact absurd rfl h
  | hover => decide
  | focus => decide
  | active => decide

end TieredStyle.PseudoState

namespace TieredStyle.Css
open TieredStyle.Text
open Token (Settled spelling)

/-! ## Normal selectors -/

/-- The tokens of a selector that reads as itself. -/
structure Normal (x : String) (ts : List Token) : Prop where
  uncommented : Uncommented x.toList
  settled : Settled ts []
  tightened : Spacing.selector.tightened ts = ts
  spelled : x.toList = Token.spelled ts
  nonempty : ts ≠ []
  clear : Clear endsHead 0 (ts.map (·.kind))

theorem exists_normal {x : String} (h : readSelector x = .ok x) : ∃ ts, Normal x ts := by
  obtain ⟨hne, hclear, hjoin⟩ := readSelector_eq_ok.1 h
  have hu : Uncommented x.toList := Spacing.uncommented_of_join_eq hjoin
  have hscan : Token.scan {} false ((Spacing.selector.join (Token.ofText x)).toList ++ []) =
      Token.ofText x ++ [] := by
    rw [hjoin, List.append_nil, List.append_nil, Token.ofText, blankComments_of_uncommented hu]
  obtain ⟨hsettled, _⟩ := Spacing.scan_join hscan hne
  refine ⟨Spacing.selector.tightened (Token.ofText x), hu, hsettled,
    Spacing.tightened_tightened _, ?_, ?_, ?_⟩
  · rw [← Spacing.toList_join, hjoin]
  · cases hts : Token.ofText x with
    | nil => exact absurd hts hne
    | cons t ts => exact List.cons_ne_nil _ _
  · rwa [Spacing.kind_tightened]

theorem Normal.read {x : String} {ts : List Token} (h : Normal x ts) : readSelector x = .ok x := by
  have hx : x = Spacing.selector.join ts := by
    rw [← String.toList_inj, Spacing.toList_join, h.tightened, h.spelled]
  have hsettled : Settled (Spacing.selector.tightened ts) [] := by
    rw [h.tightened]
    exact h.settled
  obtain ⟨hkinds, hjoin⟩ := Spacing.ofText_join hsettled (hx ▸ h.uncommented)
  rw [← hx] at hkinds hjoin
  refine readSelector_eq_ok.2 ⟨fun he => h.nonempty ?_, ?_, hjoin⟩
  · rw [he] at hkinds
    exact List.map_eq_nil_iff.1 hkinds.symm
  · rw [hkinds]
    exact h.clear

/-! ## Putting a state behind -/

/-- A state as it stands behind a selector. -/
structure Suffix (w : List Char) (k : String) : Prop where
  text : w = ':' :: k.toList
  uncommented : Uncommented w
  name : (⟨.ident, k⟩ : Lexeme).Stops []
  /-- A string literal with no end takes it in. -/
  taken : ∀ q : Quote, literalLength q.char w = (w.length, false)

theorem Suffix.taken_backslash {w : List Char} {k : String} (h : Suffix w k) (q : Quote) :
    literalLength q.char ('\\' :: w) = (w.length + 1, false) := by
  have htaken := h.taken q
  rw [h.text] at htaken ⊢
  have hcolon : ':' ≠ q.char := by cases q <;> decide
  rw [literalLength_cons (by decide) (by decide), if_neg hcolon] at htaken
  rw [literalLength_escape (by decide), (Prod.mk.inj htaken).2, ← (Prod.mk.inj htaken).1]

/-- Settled tokens that spell a text with a state behind it, as clear and as tight as those of the text. -/
structure Suffixed (s : Spacing) (w : List Char) (ts us : List Token) : Prop where
  settled : Settled us []
  spelled : spelling us = spelling ts ++ w
  clear : ∀ d, Clear endsHead d (ts.map (·.kind)) → Clear endsHead d (us.map (·.kind))
  tight : ∀ k, s.tighten k ts = ts → s.tighten k us = us

section

variable {s : Spacing} {w : List Char} {k : String} {t : Token} {ts us : List Token}

theorem Suffix.suffixed_nil (hw : Suffix w k) : Suffixed s w []
    [⟨⟨.mark .colon, String.singleton ':'⟩, false, {}⟩, ⟨⟨.ident, k⟩, false, {}⟩] where
  settled := ⟨stops_mark (by decide) _, by simpa [spelling] using hw.name, trivial⟩
  spelled := by simp [spelling, hw.text]
  clear _ _ := ⟨fun _ => rfl, fun _ => rfl, trivial⟩
  tight _ _ := by simp [Spacing.tighten]

/-- A literal with no end takes in the state. -/
theorem Suffix.suffixed_openLiteral (hw : Suffix w k) (h : Settled (t :: ts) [])
    (ho : t.isOpenLiteral = true) : ∃ u, Suffixed s w (t :: ts) [u] := by
  obtain ⟨l, spaced, start⟩ := t
  obtain ⟨q, cs, rfl, hq⟩ := h.1.literal ho
  have htaken : literalLength q.char (cs ++ (spelling ts ++ w)) =
      ((cs ++ (spelling ts ++ w)).length, false) := by
    rw [(literalBody_of_literalLength hq).literalLength_append]
    rcases Token.spelling_after_openLiteral h ho (fun c hc => by cases hc) with he | he
    · rw [List.append_nil] at he
      rw [he, List.nil_append, hw.taken, List.length_append]
    · rw [List.append_nil] at he
      rw [he, List.cons_append, List.nil_append, hw.taken_backslash, List.length_append]
      rfl
  refine ⟨⟨⟨.delim, String.ofList (q.char :: (cs ++ (spelling ts ++ w)))⟩, spaced, start⟩,
    ⟨stops_openLiteral ?_, trivial⟩, ?_, ?_, ?_⟩
  · rw [spelling, List.append_nil, List.append_nil]
    exact htaken
  · simp [spelling]
  · intro d _
    exact ⟨fun _ => rfl, trivial⟩
  · intro k hk
    have hspaced := congrArg Token.spaced (List.cons.inj hk).1
    simp only [Spacing.tighten] at hspaced ⊢
    rw [hspaced]

/-- Any other token stops where it did, since a state starts no name and is no blank. -/
theorem Suffix.suffixed_cons (hw : Suffix w k) (h : Settled (t :: ts) [])
    (ho : t.isOpenLiteral = false) (hus : Suffixed s w ts us) :
    Suffixed s w (t :: ts) (t :: us) := by
  refine ⟨⟨?_, hus.settled⟩, ?_, ?_, ?_⟩
  · rw [hus.spelled, List.append_nil]
    have halike : Alike (spelling ts ++ []) (spelling ts ++ w) :=
      .append_left _ (.ends ends_nil (by rw [hw.text]; exact ends_cons.2 (by decide)))
    refine h.1.alike halike ho fun hb => ?_
    have hblank := h.1.of_isLoneBang hb
    cases hts : spelling ts with
    | nil =>
        rw [hw.text]
        intro c hc
        cases hc
        decide
    | cons c cs =>
        rw [hts] at hblank
        exact hblank
  · simp [spelling, hus.spelled]
  · intro d hd
    exact ⟨hd.1, hus.clear _ hd.2⟩
  · intro k hk
    obtain ⟨hhead, htail⟩ := List.cons.inj hk
    rw [Spacing.tighten, hus.tight _ htail, hhead]

theorem Suffix.exists_suffixed (hw : Suffix w k) (h : Settled ts []) : ∃ us, Suffixed s w ts us := by
  induction ts with
  | nil => exact ⟨_, hw.suffixed_nil⟩
  | cons t ts ih =>
      cases ho : t.isOpenLiteral with
      | true =>
          obtain ⟨u, hu⟩ := hw.suffixed_openLiteral h ho
          exact ⟨[u], hu⟩
      | false =>
          obtain ⟨us, hus⟩ := ih h.2
          exact ⟨t :: us, hw.suffixed_cons h ho hus⟩

end

/-- Putting a state behind a selector that reads as itself gives another one. -/
theorem Normal.suffix {x k : String} {ts : List Token} (h : Normal x ts)
    (hw : Suffix (':' :: k.toList) k) : readSelector (x ++ ":" ++ k) = .ok (x ++ ":" ++ k) := by
  obtain ⟨hu, hsettled, htight, hspelled, hne, hclear⟩ := h
  have htext : (x ++ ":" ++ k).toList = x.toList ++ ':' :: k.toList := by simp
  cases ts with
  | nil => exact absurd rfl hne
  | cons t ts =>
      -- Whether blanks stand before the first token does not show in the text.
      have hsettled' : Settled ({ t with spaced := false } :: ts) [] := hsettled
      obtain ⟨us, hus, hspell, hclear', htight'⟩ :=
        hw.exists_suffixed (s := .selector) hsettled'
      have hfirst : spelling ({ t with spaced := false } :: ts) = x.toList := by
        rw [hspelled]
        simp [spelling, Token.spelled, Token.bare, Token.spelling_unplaced]
      have hus_tight : Spacing.selector.tighten .delim us = us := by
        refine htight' .delim ?_
        rw [Spacing.tighten, (List.cons.inj htight).2]
        rfl
      rw [hfirst] at hspell
      obtain ⟨c, cs, hc, hblank⟩ := hsettled.1.starts (spelling ts)
      have hx : x.toList = c :: cs := by
        rw [← hfirst, ← hc]
        rfl
      cases us with
      | nil => simp [spelling] at hspell
      | cons u us =>
          have hspaced : u.spaced = false := by
            cases hs : u.spaced with
            | false => rfl
            | true =>
                rw [spelling, hs, hx] at hspell
                rw [← (List.cons.inj hspell).1] at hblank
                cases hblank
          suffices hnormal : Normal (x ++ ":" ++ k) (u :: us) from hnormal.read
          refine ⟨?_, hus, ?_, ?_, List.cons_ne_nil u us, hclear' 0 hclear⟩
          · rw [htext]
            exact hu.append hw.uncommented fun _ => by simp
          · rw [Spacing.tightened, (List.cons.inj hus_tight).2]
          · rw [htext, ← hspell]
            simp [spelling, Token.spelled, Token.bare, Token.spelling_unplaced, hspaced]

theorem suffix_key {p : PseudoState} (h : p ≠ .base) : Suffix (':' :: p.key.toList) p.key := by
  cases p with
  | base => exact absurd rfl h
  | hover =>
      exact ⟨rfl, by unfold Uncommented; decide, ⟨'h', "over".toList, rfl, rfl, rfl⟩,
        fun q => by cases q <;> rfl⟩
  | focus =>
      exact ⟨rfl, by unfold Uncommented; decide, ⟨'f', "ocus".toList, rfl, rfl, rfl⟩,
        fun q => by cases q <;> rfl⟩
  | active =>
      exact ⟨rfl, by unfold Uncommented; decide, ⟨'a', "ctive".toList, rfl, rfl, rfl⟩,
        fun q => by cases q <;> rfl⟩

/-- A selector that reads as itself does so for each state. -/
theorem readSelector_applyTo {x : String} (h : readSelector x = .ok x) (p : PseudoState) :
    readSelector (p.applyTo x) = .ok (p.applyTo x) := by
  by_cases hp : p = .base
  · rw [hp]
    exact h
  · obtain ⟨ts, hts⟩ := exists_normal h
    rw [PseudoState.applyTo, PseudoState.select, if_neg (PseudoState.key_ne_base hp)]
    exact hts.suffix (suffix_key hp)

/-! ## Finding the state -/

/-- A word that starts with a separator stands on one side of it, if it has no other. -/
theorem infix_append_cons {c : Char} {word xs ys : List Char} (hword : c ∉ word)
    (h : c :: word <:+: xs ++ c :: ys) : c :: word <:+: xs ∨ c :: word <:+: c :: ys := by
  obtain ⟨u, v, huv⟩ := h
  rcases List.append_eq_append_iff.1 huv with ⟨w, hxs, _⟩ | ⟨w, hu, hys⟩
  · exact .inl ⟨u, w, hxs.symm⟩
  · rcases List.append_eq_append_iff.1 hu with ⟨w', hxs, hw⟩ | ⟨w', _, hw⟩
    · cases w with
      | nil => exact .inl ⟨u, [], by rw [hxs, hw]; simp⟩
      | cons d w =>
          cases w' with
          | nil => exact .inr ⟨[], v, by rw [hw, hys]; simp⟩
          | cons d' w' =>
              obtain ⟨rfl, rfl⟩ := List.cons.inj hw
              obtain ⟨rfl, _⟩ := List.cons.inj hys
              exact absurd (by simp) hword
    · exact .inr ⟨w', v, by rw [hys, hw]⟩

end TieredStyle.Css

namespace TieredStyle.PseudoState
open TieredStyle.Text TieredStyle.Css

theorem infix_key {p q : PseudoState} (hq : q ≠ .base)
    (h : ':' :: q.key.toList <:+: ':' :: p.key.toList) : q = p := by
  rw [← occurs_iff] at h
  revert h
  cases q <;> cases p <;> first | exact absurd rfl hq | decide

theorem toList_applyTo {p : PseudoState} (hp : p ≠ .base) (selector : String) :
    (p.applyTo selector).toList = selector.toList ++ ':' :: p.key.toList := by
  rw [applyTo, select, if_neg (key_ne_base hp)]
  simp

theorem applyTo_inj {selector : String} {p q : PseudoState}
    (h : p.applyTo selector = q.applyTo selector) : p = q := by
  have hlist := congrArg String.toList h
  cases p <;> cases q <;> simp [applyTo, select, key] at hlist ⊢

theorem occurs_applyTo {selector : String} {p q : PseudoState} (hq : q ≠ .base)
    (hnone : ¬ ':' :: q.key.toList <:+: selector.toList) :
    occurs (':' :: q.key.toList) (p.applyTo selector).toList = decide (q = p) := by
  rw [Bool.eq_iff_iff, occurs_iff, decide_eq_true_iff]
  by_cases hp : p = .base
  · subst hp
    exact iff_of_false hnone hq
  · rw [toList_applyTo hp]
    have hcolon : ':' ∉ q.key.toList := by cases q <;> decide
    constructor
    · intro h
      rcases infix_append_cons hcolon h with h | h
      · exact absurd h hnone
      · exact infix_key hq h
    · rintro rfl
      exact ⟨selector.toList, [], by simp⟩

/-- With a state behind it a selector asks for this state, if it asked for none. -/
theorem ofSelector_applyTo {selector : String}
    (hnone : ∀ q : PseudoState, q ≠ .base → ¬ ':' :: q.key.toList <:+: selector.toList)
    (p : PseudoState) : ofSelector (p.applyTo selector) = p := by
  have hoccurs := fun q hq => occurs_applyTo (p := p) (q := q) hq (hnone q hq)
  rw [ofSelector]
  cases p <;> simp [List.find?, hoccurs]

end TieredStyle.PseudoState
