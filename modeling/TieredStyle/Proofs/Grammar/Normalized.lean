import TieredStyle.Proofs.Grammar.Fragment
import TieredStyle.Proofs.Lexing.Even
import TieredStyle.Proofs.Lexing.Rejoined

/-!
# Reading a normalized fragment

A text reads as itself exactly if it is evenly spaced and nothing in it ends it. What has been read from a fragment
is so, if no string literal in the fragment lacks its end. A value is different if a slash stands before a star in
it: with no blanks between them they start a comment.
-/
namespace TieredStyle.Css
open TieredStyle.Text
open Token (OpenLast Parted Settled spelling)

/-! ## Neat texts -/

/-- Blanks stand in a text only where they mean something, and no token outside brackets ends it. -/
structure Spacing.Neat (s : Spacing) (stop : Kind → Bool) (y : String) : Prop where
  even : s.Even (Token.ofText y) y.toList
  clear : Clear stop 0 ((Token.ofText y).map (·.kind))

theorem readSelector_self_iff {y : String} (hne : y ≠ "") :
    readSelector y = .ok y ↔ Spacing.selector.Neat endsHead y := by
  rw [readSelector_eq_ok, Spacing.join_ofText_eq_iff]
  constructor
  · rintro ⟨_, hclear, heven⟩
    exact ⟨heven, hclear⟩
  · rintro ⟨heven, hclear⟩
    refine ⟨fun hnil => hne ?_, hclear, heven⟩
    rw [hnil] at heven
    cases hy : y.toList with
    | nil => exact String.toList_inj.1 hy
    | cons c cs =>
        rw [hy] at heven
        cases heven

theorem readParams_self_iff {y : String} : readParams y = .ok y ↔ Spacing.params.Neat endsHead y := by
  rw [readParams_eq_ok, Spacing.join_ofText_eq_iff]
  exact ⟨fun ⟨hclear, heven⟩ => ⟨heven, hclear⟩, fun ⟨heven, hclear⟩ => ⟨hclear, heven⟩⟩

theorem readValue_self_iff {y : String} :
    readValue y = .ok ⟨y, false⟩ ↔ Spacing.value.Neat endsValue y := by
  constructor
  · intro h
    obtain ⟨ts, rest, hy, hclear, hjoin, hmark⟩ := exists_of_readValue h
    rcases hmark with ⟨rfl, _⟩ | ⟨_, _, _, himportant⟩
    · rw [List.append_nil] at hy
      subst hy
      exact ⟨Spacing.join_ofText_eq_iff.1 hjoin.symm, hclear⟩
    · cases himportant
  · rintro ⟨heven, hclear⟩
    rw [readValue_of_clear hclear, Spacing.join_ofText_eq_iff.2 heven]

theorem ne_empty_of_readSelector {x y : String} (h : readSelector x = .ok y) : y ≠ "" := by
  obtain ⟨hne, _, rfl⟩ := readSelector_eq_ok.1 h
  obtain ⟨t, ts, hts⟩ := List.exists_cons_of_ne_nil hne
  obtain ⟨r, hstops⟩ := Token.stops_of_mem_scan t (by rw [← Token.ofText, hts]; exact List.mem_cons_self)
  rw [hts]
  exact Spacing.join_ne_empty hstops ts

/-! ## Texts that have been read -/

section

variable {s : Spacing} {x : String} {ts rest : List Token}

theorem ends_spelling_important {t : Token} (h : t.Stops []) (ht : t.kind = .important) :
    Ends (spelling [t]) := by
  obtain ⟨cs, htext, _⟩ := h.text_of_important ht
  rw [spelling, htext]
  split
  · exact ends_cons.2 (by decide)
  · exact ends_cons.2 (by decide)

theorem settled_of_ofText (hx : Token.ofText x = ts ++ rest) (hopen : OpenLast (ts ++ rest)) :
    Settled (ts ++ rest) [] := by
  rw [← hx] at hopen ⊢
  exact Token.settled_scan_of_openLast hopen

/-- The first tokens of a text, in front of which blanks count as little as at the end, are settled if they
stand alone. -/
theorem ofText_join_left (hx : Token.ofText x = ts ++ rest) (hopen : OpenLast (ts ++ rest))
    (hrest : Settled rest [] → Ends (spelling rest)) (hp : s = .value → Parted ts) :
    (Token.ofText (s.join ts)).map (·.kind) = ts.map (·.kind) ∧
      s.join (Token.ofText (s.join ts)) = s.join ts := by
  have hu : Uncommented (spelling (ts ++ rest)) := by
    rw [← hx]
    exact Token.uncommented_spelling_scan (uncommented_blankComments x.toList)
  obtain ⟨hts, hrest'⟩ := Token.settled_append.1 (settled_of_ofText hx hopen)
  rw [List.append_nil] at hts
  rw [Token.spelling_append] at hu
  apply Spacing.ofText_join
  · exact Spacing.settled_tightened_of_openLast hts hopen.left (hrest hrest')
  · exact Spacing.uncommented_join hts (List.isChain_append.1 hu).1 hp

end

theorem ofText_join_ofText {s : Spacing} {x : String} (hopen : OpenLast (Token.ofText x))
    (hs : s ≠ .value) :
    (Token.ofText (s.join (Token.ofText x))).map (·.kind) = (Token.ofText x).map (·.kind) ∧
      s.join (Token.ofText (s.join (Token.ofText x))) = s.join (Token.ofText x) := by
  have hnil := (List.append_nil (Token.ofText x)).symm
  refine ofText_join_left hnil (hnil ▸ hopen) (fun _ => ends_nil) fun h => absurd h hs

theorem readSelector_readSelector {x y : String} (hopen : OpenLast (Token.ofText x))
    (h : readSelector x = .ok y) : readSelector y = .ok y := by
  obtain ⟨hne, hclear, rfl⟩ := readSelector_eq_ok.1 h
  obtain ⟨hkinds, hjoin⟩ := ofText_join_ofText (s := .selector) hopen (by decide)
  refine readSelector_eq_ok.2 ⟨fun he => hne ?_, hkinds ▸ hclear, hjoin⟩
  rw [he] at hkinds
  exact List.map_eq_nil_iff.1 hkinds.symm

theorem readParams_readParams {x y : String} (hopen : OpenLast (Token.ofText x))
    (h : readParams x = .ok y) : readParams y = .ok y := by
  obtain ⟨hclear, rfl⟩ := readParams_eq_ok.1 h
  obtain ⟨hkinds, hjoin⟩ := ofText_join_ofText (s := .params) hopen (by decide)
  exact readParams_eq_ok.2 ⟨hkinds ▸ hclear, hjoin⟩

/-- The mark of a value is neither a slash nor a star. -/
theorem parted_append_important {ts : List Token} {t : Token} (ht : t.kind = .important) :
    Parted (ts ++ [t]) ↔ Parted ts := by
  simp [Parted, List.isChain_append, ht]

theorem readValue_readValue {x : String} {v : Value} (hopen : OpenLast (Token.ofText x))
    (h : readValue x = .ok v) : readValue v.text = .ok ⟨v.text, false⟩ ↔ Parted (Token.ofText x) := by
  obtain ⟨ts, rest, hx, hclear, htext, hrest⟩ := exists_of_readValue h
  have hends : Settled rest [] → Ends (spelling rest) := by
    intro hsettled
    rcases hrest with ⟨rfl, _⟩ | ⟨t, rfl, ht, _⟩
    · exact ends_nil
    · exact ends_spelling_important hsettled.1 ht
  have hparted : Parted (Token.ofText x) ↔ Parted ts := by
    rw [hx]
    rcases hrest with ⟨rfl, _⟩ | ⟨t, rfl, ht, _⟩
    · rw [List.append_nil]
    · exact parted_append_important ht
  rw [hparted, htext]
  rw [hx] at hopen
  constructor
  · intro hread
    obtain ⟨us, rest', hy, _, hjoin, hmark⟩ := exists_of_readValue hread
    have hu : Uncommented (Spacing.value.join ts).toList := by
      rcases hmark with ⟨rfl, _⟩ | ⟨_, _, _, himportant⟩
      · rw [List.append_nil] at hy
        exact Spacing.uncommented_of_join_eq (hy ▸ hjoin.symm)
      · cases himportant
    have hsettled := settled_of_ofText hx hopen
    exact Spacing.parted_of_uncommented_join (Token.settled_append.1 hsettled).1 hu
  · intro hp
    obtain ⟨hkinds, hjoin⟩ := ofText_join_left hx hopen hends fun _ => hp
    rw [readValue_of_clear (hkinds ▸ hclear), hjoin]

/-- What has been read reads as itself exactly if it is neat. It always is if no string literal before the
last token lacks its end, apart from values in which a slash stands right before a star. -/
theorem read_normalized (x : String) :
    (∀ y, readSelector x = .ok y → (readSelector y = .ok y ↔ Spacing.selector.Neat endsHead y)) ∧
      (∀ y, readParams x = .ok y → (readParams y = .ok y ↔ Spacing.params.Neat endsHead y)) ∧
      (∀ v, readValue x = .ok v →
        (readValue v.text = .ok ⟨v.text, false⟩ ↔ Spacing.value.Neat endsValue v.text)) ∧
      (OpenLast (Token.ofText x) →
        (∀ y, readSelector x = .ok y → readSelector y = .ok y) ∧
          (∀ y, readParams x = .ok y → readParams y = .ok y) ∧
            ∀ v, readValue x = .ok v →
              (readValue v.text = .ok ⟨v.text, false⟩ ↔ Parted (Token.ofText x))) := by
  refine ⟨fun y h => readSelector_self_iff (ne_empty_of_readSelector h), fun _ _ => readParams_self_iff,
    fun _ _ => readValue_self_iff, fun hopen => ?_⟩
  exact ⟨fun _ => readSelector_readSelector hopen, fun _ => readParams_readParams hopen,
    fun _ => readValue_readValue hopen⟩

/-- The last token is a string literal with no end. -/
theorem read_normalized_open : OpenLast (Token.ofText "a , ( 1 / 2 )  'b") ∧
    readSelector "a , ( 1 / 2 )  'b" = .ok "a,(1 / 2) 'b" ∧ readSelector "a,(1 / 2) 'b" = .ok "a,(1 / 2) 'b" ∧
      Spacing.selector.Neat endsHead "a,(1 / 2) 'b" ∧ readParams "a,(1 / 2) 'b" = .ok "a,(1 / 2) 'b" ∧
        readValue "a,(1/2) 'b" = .ok ⟨"a,(1/2) 'b", false⟩ := by
  have hopen : OpenLast (Token.ofText "a , ( 1 / 2 )  'b") := by
    unfold OpenLast
    decide +kernel
  have hparted : Parted (Token.ofText "a , ( 1 / 2 )  'b") := by
    unfold Parted
    decide +kernel
  have hselector : readSelector "a , ( 1 / 2 )  'b" = .ok "a,(1 / 2) 'b" := by decide +kernel
  have hparams : readParams "a , ( 1 / 2 )  'b" = .ok "a,(1 / 2) 'b" := by decide +kernel
  have hvalue : readValue "a , ( 1 / 2 )  'b" = .ok ⟨"a,(1/2) 'b", false⟩ := by decide +kernel
  obtain ⟨hneat, _, _, hread⟩ := read_normalized "a , ( 1 / 2 )  'b"
  obtain ⟨hselector', hparams', hvalue'⟩ := hread hopen
  exact ⟨hopen, hselector, hselector' _ hselector, (hneat _ hselector).1 (hselector' _ hselector),
    hparams' _ hparams, (hvalue' _ hvalue).2 hparted⟩

/-- A slash and a star come together and start a comment. -/
theorem exists_readValue_ne : ∃ v, readValue "/ *" = .ok v ∧ readValue v.text ≠ .ok ⟨v.text, false⟩ :=
  ⟨⟨"/*", false⟩, by decide +kernel, by decide +kernel⟩

-- A literal with no end before the last token is closed by what follows it on the next line.
example : readSelector "'\n'  b" = .ok "' '  b" ∧ readSelector "' '  b" = .ok "' ' b" := by decide +kernel

end TieredStyle.Css
