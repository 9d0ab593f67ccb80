import TieredStyle.Proofs.Grammar.Fragment
import TieredStyle.Proofs.Grammar.Retold
import TieredStyle.Proofs.Lexing.Commented
import TieredStyle.Proofs.Lexing.CutInto
import TieredStyle.Proofs.Lexing.Rejoined
import TieredStyle.Proofs.Printing.Legible
import TieredStyle.Proofs.Tree.Lines

/-!
# Selectors at the head of a rule

What is read as a selector is read as the selector of a rule in front of a block, unless it starts with an
at-keyword: a stylesheet takes that for the name of an at-rule.
-/
namespace TieredStyle.Css
open TieredStyle.Text
open Token (Settled bare)

theorem Clear.passes {stop : Kind → Bool} {depth : Nat} {ks : List Kind} (h : Clear stop depth ks)
    (hdepth : depthAfterAll depth ks = 0) : Passes stop depth ks := by
  induction ks generalizing depth with
  | nil => exact hdepth
  | cons k ks ih => exact ⟨h.1, ih h.2 hdepth⟩

/-! ## Normalized texts in front of a break -/

namespace Spacing

variable {s : Spacing} {ts : List Token}

theorem lexeme_tighten (k : Kind) (ts : List Token) :
    (s.tighten k ts).map (·.toLexeme) = ts.map (·.toLexeme) := by
  induction ts generalizing k with
  | nil => rfl
  | cons t ts ih => simp only [tighten, List.map_cons, ih]

theorem lexeme_tightened (ts : List Token) : (s.tightened ts).map (·.toLexeme) = ts.map (·.toLexeme) := by
  cases ts with
  | nil => rfl
  | cons t ts => simp only [tightened, List.map_cons, lexeme_tighten]

theorem forall_mem_tightened {p : Lexeme → Prop} (h : ∀ t ∈ ts, p t.toLexeme) :
    ∀ t ∈ s.tightened ts, p t.toLexeme := by
  intro t ht
  obtain ⟨u, hu, he⟩ := List.mem_map.1 (lexeme_tightened (s := s) ts ▸ List.mem_map_of_mem ht)
  exact he ▸ h u hu

theorem join_of_tightened {us : List Token} (h : Token.bare us = Token.bare (s.tightened ts)) :
    s.join us = s.join ts := by
  rw [join_of_bare h, ← String.toList_inj, toList_join, toList_join, tightened_tightened]

end Spacing

/-- The normalized text of a selector is cut into its tokens in front of a break that is not blank. -/
theorem scan_join_before {s : Spacing} {x : String} {r : List Char}
    (hopen : ∀ t ∈ Token.ofText x, t.isOpenLiteral = false) (hne : Token.ofText x ≠ []) (hr : Ends r)
    (hblank : ∀ c ∈ r.head?, isBlank c = false) :
    ∃ us pos, Token.scan {} false ((s.join (Token.ofText x)).toList ++ r) = us ++ Token.scan pos false r ∧
      bare us = bare (s.tightened (Token.ofText x)) := by
  have hlast := Token.openLast_of_forall hopen
  have hsettled : Settled (s.tightened (Token.ofText x)) [] :=
    Spacing.settled_tightened_of_openLast (Token.settled_scan_of_openLast hlast) hlast ends_nil
  have hbefore := hsettled.before (Spacing.forall_mem_tightened (p := fun l => l.isOpenLiteral = false) hopen) hr hblank
  rw [s.toList_join]
  refine Token.scan_spelled hbefore ?_ {} false
  cases hts : Token.ofText x with
  | nil => exact absurd hts hne
  | cons t ts => exact List.cons_ne_nil _ _

theorem uncommented_join_ofText {s : Spacing} {x : String} (hopen : ∀ t ∈ Token.ofText x, t.isOpenLiteral = false)
    (hs : s ≠ .value) : Uncommented (s.join (Token.ofText x)).toList := by
  have hlast := Token.openLast_of_forall hopen
  exact Spacing.uncommented_join (Token.settled_scan_of_openLast hlast)
    (Token.uncommented_spelling_scan (uncommented_blankComments x.toList)) fun h => absurd h hs

/-! ## An empty block behind a selector -/

/-- The nodes of a stylesheet of one rule with nothing in its block. -/
def emptyRule (selector : String) : List (Nat × Node) :=
  [(0, .stylesheet), (1, .rule selector (some 0)), (2, .block)]

/-- With an empty block behind it a selector is cut into its tokens and the two braces. -/
theorem ofText_emptyRule {x : String} (hopen : ∀ t ∈ Token.ofText x, t.isOpenLiteral = false)
    (hne : Token.ofText x ≠ []) : ∃ us o c,
      Token.ofText (Spacing.selector.join (Token.ofText x) ++ "\x7b\x7d") = us ++ [o, c] ∧
        bare us = bare (Spacing.selector.tightened (Token.ofText x)) ∧
          o.is .braceOpen = true ∧ c.is .braceClose = true := by
  obtain ⟨us, pos, hscan, hbare⟩ := scan_join_before (s := .selector) (r := ['\x7b', '\x7d']) hopen hne
    (ends_cons.2 (by decide)) (fun c hc => by cases hc; decide)
  obtain ⟨o, pos₁, ho, hopens⟩ := Token.scan_mark (m := .braceOpen) (by decide) pos false ['\x7d']
  obtain ⟨c, pos₂, hc, hcloses⟩ := Token.scan_mark (m := .braceClose) (by decide) pos₁ false []
  have hu : Uncommented ((Spacing.selector.join (Token.ofText x)).toList ++ ['\x7b', '\x7d']) :=
    (uncommented_join_ofText hopen (by decide)).append (by unfold Uncommented; decide) fun _ h => by cases h
  refine ⟨us, o, c, ?_, hbare, Token.is_iff.2 ho, Token.is_iff.2 hc⟩
  rw [Token.ofText, String.toList_append, show "\x7b\x7d".toList = ['\x7b', '\x7d'] from rfl,
    blankComments_of_uncommented hu, hscan]
  have hopens' : Token.scan pos false ['\x7b', '\x7d'] = o :: Token.scan pos₁ false ['\x7d'] := hopens
  have hcloses' : Token.scan pos₁ false ['\x7d'] = c :: Token.scan pos₂ false [] := hcloses
  rw [hopens', hcloses', Token.scan_nil]

section

variable {t o c : Token} {us : List Token}

/-- Behind an at-keyword the tokens and the two braces are the block of an at-rule. -/
theorem itemsRead_atRule (ht : t.kind = .atKeyword) (hpasses : Passes endsHead 0 ((t :: us).map (·.kind)))
    (ho : o.is .braceOpen = true) (hc : c.is .braceClose = true) :
    ∃ item, ItemsRead 0 (t :: (us ++ [o, c])) [item] [] ∧
      item.lines 1 = [(1, .atRule t.ruleName (Spacing.params.join us) (some 0)), (2, .block)] := by
  have hrest : Passes endsHead 0 (us.map (·.kind)) := by
    have hrest : Passes endsHead (t.kind.depthAfter 0) (us.map (·.kind)) := hpasses.2
    rwa [ht] at hrest
  have hcollect : collect endsHead 0 (us ++ [o, c]) = (us, [o, c]) :=
    collect_of_passes hrest fun e he => by
      cases he
      rw [Token.is_iff.1 ho]
      rfl
  cases hn : holdsItems t.ruleName with
  | true =>
      refine ⟨_, .group ht hn hcollect ho (by decide) (.close (by decide) hc) .finish, ?_⟩
      rw [Item.lines]
      rfl
  | false =>
      refine ⟨_, .descriptors ht hn hcollect ho (.close hc) .finish, ?_⟩
      rw [Item.lines]
      rfl

theorem itemsRead_rule (ht : t.kind ≠ .atKeyword) (hpasses : Passes endsHead 0 ((t :: us).map (·.kind)))
    (ho : o.is .braceOpen = true) (hc : c.is .braceClose = true) :
    ItemsRead 0 (t :: (us ++ [o, c])) [.rule (Spacing.selector.join (t :: us)) []] [] := by
  have hcollect : collect endsHead 0 ((t :: us) ++ [o, c]) = (t :: us, [o, c]) :=
    collect_of_passes hpasses fun e he => by
      cases he
      rw [Token.is_iff.1 ho]
      rfl
  exact .rule ht (hpasses.1 rfl) hcollect ho (.close hc) .finish

end

theorem head?_kind_ne_iff {ts : List Token} {k : Kind} :
    (∀ t ∈ ts.head?, t.kind ≠ k) ↔ (ts.map (·.kind)).head? ≠ some k := by
  cases ts <;> simp

/-- A selector in which each bracket is closed and each string literal has an end is the selector of a rule, exactly
if it does not start with an at-keyword. -/
theorem readSelector_emptyRule_iff {x n : String} (hopen : ∀ t ∈ Token.ofText x, t.isOpenLiteral = false)
    (hdepth : depthAfterAll 0 ((Token.ofText x).map (·.kind)) = 0) (h : readSelector x = .ok n) :
    (∃ sheet, Sheet.read (n ++ "{}") = .ok sheet ∧ sheet.listing = .ok (emptyRule n)) ↔
      ∀ t ∈ (Token.ofText x).head?, t.kind ≠ .atKeyword := by
  obtain ⟨hne, hclear, rfl⟩ := readSelector_eq_ok.1 h
  obtain ⟨us, o, c, htokens, hbare, ho, hc⟩ := ofText_emptyRule hopen hne
  have hkinds : us.map (·.kind) = (Token.ofText x).map (·.kind) :=
    (Token.kind_of_bare hbare).trans (Spacing.kind_tightened _)
  have hjoin : Spacing.selector.join us = Spacing.selector.join (Token.ofText x) := Spacing.join_of_tightened hbare
  have hpasses : Passes endsHead 0 (us.map (·.kind)) := hkinds ▸ hclear.passes hdepth
  rw [head?_kind_ne_iff, ← hkinds, ← head?_kind_ne_iff]
  cases us with
  | nil => exact absurd (List.map_eq_nil_iff.1 hkinds.symm) hne
  | cons t us =>
      rw [List.cons_append] at htokens
      by_cases ht : t.kind = .atKeyword
      · obtain ⟨item, hread, hlines⟩ := itemsRead_atRule ht hpasses ho hc
        refine iff_of_false ?_ (fun hall => hall t rfl ht)
        rintro ⟨sheet, hsheet, hlisting⟩
        rw [Sheet.read_eq_ok_iff.2 ⟨_, htokens ▸ hread, rfl⟩] at hsheet
        cases hsheet
        rw [Sheet.listing_ofItems, itemLines, hlines] at hlisting
        simp [emptyRule] at hlisting
      · have hread := itemsRead_rule ht hpasses ho hc
        rw [hjoin] at hread
        refine iff_of_true ⟨_, Sheet.read_eq_ok_iff.2 ⟨_, htokens ▸ hread, rfl⟩, ?_⟩ fun u hu => ?_
        · rw [Sheet.listing_ofItems]
          rfl
        · cases hu
          exact ht

/-- Blanks that mean nothing stand around the combinator and in the brackets. -/
theorem readSelector_emptyRule_child : (∀ t ∈ Token.ofText " .a > :not( b ) ", t.isOpenLiteral = false) ∧
    depthAfterAll 0 ((Token.ofText " .a > :not( b ) ").map (·.kind)) = 0 ∧
      readSelector " .a > :not( b ) " = .ok ".a>:not(b)" ∧
        ∃ sheet, Sheet.read ".a>:not(b)\x7b\x7d" = .ok sheet ∧ sheet.listing = .ok (emptyRule ".a>:not(b)") := by
  have hopen : ∀ t ∈ Token.ofText " .a > :not( b ) ", t.isOpenLiteral = false := by decide +kernel
  have hdepth : depthAfterAll 0 ((Token.ofText " .a > :not( b ) ").map (·.kind)) = 0 := by decide +kernel
  have hread : readSelector " .a > :not( b ) " = .ok ".a>:not(b)" := by decide +kernel
  exact ⟨hopen, hdepth, hread, (readSelector_emptyRule_iff hopen hdepth hread).2 (by decide +kernel)⟩

/-- A selector that starts with an at-keyword is read as one, but not as that of a rule. -/
theorem readSelector_not_emptyRule : inComment false "@u".toList = false ∧
    (∀ t ∈ Token.ofText "@u", t.isOpenLiteral = false ∧ t.isLoneBang = false) ∧
      depthAfterAll 0 ((Token.ofText "@u").map (·.kind)) = 0 ∧ readSelector "@u" = .ok "@u" ∧
        ¬∃ sheet, Sheet.read "@u\x7b\x7d" = .ok sheet ∧ sheet.listing = .ok (emptyRule "@u") := by
  refine ⟨by decide, by decide +kernel, by decide +kernel, by decide +kernel, ?_⟩
  rintro ⟨sheet, hsheet, hlisting⟩
  have hread : (Sheet.read "@u\x7b\x7d").toOption.map Sheet.listing =
      some (.ok [(0, .stylesheet), (1, .atRule "u" "" (some 0)), (2, .block)]) := by decide +kernel
  rw [hsheet, Except.toOption, Option.map_some, hlisting] at hread
  revert hread
  decide

end TieredStyle.Css
