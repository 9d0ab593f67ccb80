import TieredStyle.Proofs.Grammar.Fragment
import TieredStyle.Proofs.Printing.Exact

/-!
# String literals in values

A string literal that is a lexeme of its own reads as itself, alone and as the value of a declaration, exactly if
no comment starts in it: comments are blanked without regard to quotes.
-/
namespace TieredStyle.Css
open TieredStyle.Text

variable {x : String} {q : Quote}

/-- A text of one lexeme stops at its end. -/
theorem stops_of_lexemes {l : Lexeme} (h : lexemes x = [l]) (hl : l.text = x) : l.Stops [] := by
  obtain ⟨t, hscan, rfl⟩ : ∃ t : Token, Token.scan {} false x.toList = [t] ∧ t.toLexeme = l := by
    obtain ⟨t, hscan, ht⟩ := List.map_eq_singleton_iff.1 h
    exact ⟨t, hscan, ht⟩
  obtain ⟨w, r, _, hcut, _, hstops, _⟩ := Token.scan_eq_cons hscan
  have hlen := congrArg List.length hcut
  rw [hl, List.length_append, List.length_append] at hlen
  have hr : r = [] := List.eq_nil_of_length_eq_zero (by omega)
  exact hr ▸ hstops

/-- A string literal with no comment in it is cut in front of any tail. -/
theorem cut_of_lexemes (h : lexemes x = [⟨.quoted q, x⟩]) (hu : Uncommented x.toList) (spaced : Bool) :
    Cut .value (Passes endsValue 0) spaced x := by
  refine ⟨hu, [⟨⟨.quoted q, x⟩, false, {}⟩], fun r hr => ⟨?_, trivial⟩, rfl, ?_, fun _ => rfl, rfl⟩
  · exact (stops_of_lexemes h rfl).alike_of_isPlain rfl (.ends ends_nil hr.ends)
  · simp [Token.spelled, Token.bare, Token.spelling]

theorem readValue_literal_iff (h : lexemes x = [⟨.quoted q, x⟩]) :
    readValue x = .ok ⟨x, false⟩ ↔ Uncommented x.toList := by
  constructor
  · intro hread
    obtain ⟨ts, rest, hx, _, hjoin, hmark⟩ := exists_of_readValue hread
    rcases hmark with ⟨rfl, _⟩ | ⟨_, _, _, himportant⟩
    · rw [List.append_nil] at hx
      exact Spacing.uncommented_of_join_eq (hx ▸ hjoin.symm)
    · cases himportant
  · intro hu
    exact (cut_of_lexemes h hu false).readValue

/-! ## As the value of a declaration -/

/-- Only its own text decides whether the value of a rule is legible. -/
theorem Item.Legible.of_cut {f : Format} {depth : Nat} {selector p : String} {v w : Value}
    (h : (Item.rule selector [⟨p, v⟩]).Legible f depth)
    (hw : Cut .value (Passes endsValue 0) (f.isSpaced && w.important) w.text) :
    (Item.rule selector [⟨p, w⟩]).Legible f depth := by
  rw [Item.Legible] at h ⊢
  refine ⟨h.1, fun d hd => ?_⟩
  have hold := h.2 _ List.mem_cons_self
  rw [List.mem_singleton.1 hd]
  exact ⟨hold.property, hold.uncommented, hw⟩

theorem read_print_iff_legible {f : Format} {items : List Item} (hn : ItemsWellNamed items) :
    Sheet.read ((Sheet.ofItems items).print f) = .ok (Sheet.ofItems items) ↔ ItemsLegible f 0 items := by
  constructor
  · intro h
    have hlisting := Sheet.listing_ofItems items
    exact (survives_iff_legible hn).1 ⟨_, _, h, hlisting, hlisting⟩
  · exact read_print_of_legible

theorem wellNamed_rule (selector : String) (body : List Declaration) :
    ItemsWellNamed [.rule selector body] := ⟨trivial, trivial⟩

theorem legible_rule_iff {v : Value} :
    ItemsLegible .compact 0 [.rule ".a" [⟨"p", v⟩]] ↔ Cut .value (Passes endsValue 0) false v.text := by
  have hread : Sheet.read ((Sheet.ofItems [.rule ".a" [⟨"p", ⟨"0", false⟩⟩]]).print .compact) =
      .ok (.ofItems [.rule ".a" [⟨"p", ⟨"0", false⟩⟩]]) := by decide +kernel
  have hlegible := (read_print_iff_legible (wellNamed_rule _ _)).1 hread
  simp only [ItemsLegible, and_true] at hlegible ⊢
  constructor
  · intro h
    rw [Item.Legible] at h
    exact (h.2 _ List.mem_cons_self).value
  · intro h
    exact hlegible.of_cut h

/-- A string literal survives reading, alone and in a rule, exactly if no comment starts in it. -/
theorem read_literal_iff (h : lexemes x = [⟨.quoted q, x⟩]) :
    (readValue x = .ok ⟨x, false⟩ ↔ Uncommented x.toList) ∧
      (Sheet.read (".a\x7bp:" ++ x ++ "\x7d") = .ok (.ofItems [.rule ".a" [⟨"p", ⟨x, false⟩⟩]]) ↔
        Uncommented x.toList) := by
  refine ⟨readValue_literal_iff h, ?_⟩
  have hprint : ".a\x7bp:" ++ x ++ "\x7d" =
      (Sheet.ofItems [.rule ".a" [⟨"p", ⟨x, false⟩⟩]]).print .compact := by
    rw [← String.toList_inj, toList_print_ofItems]
    simp [printedItems, Item.printed, printedDeclarations, Declaration.printed, Value.mark, Format.block,
      Format.margin, Format.space, Format.newline, Format.terminator]
  rw [hprint, read_print_iff_legible (wellNamed_rule _ _), legible_rule_iff]
  constructor
  · intro hcut
    exact hcut.1
  · intro hu
    exact cut_of_lexemes h hu false

/-- A literal with a quote of the other kind, an escaped one, a slash and a star in it. -/
theorem read_literal_iff_quotes : lexemes "'\"\\'/ *\\/'" = [⟨.quoted .single, "'\"\\'/ *\\/'"⟩] ∧
    readValue "'\"\\'/ *\\/'" = .ok ⟨"'\"\\'/ *\\/'", false⟩ ∧
      Sheet.read ".a\x7bp:'\"\\'/ *\\/'\x7d" =
        .ok (.ofItems [.rule ".a" [⟨"p", ⟨"'\"\\'/ *\\/'", false⟩⟩]]) := by
  have h : lexemes "'\"\\'/ *\\/'" = [⟨.quoted .single, "'\"\\'/ *\\/'"⟩] := by decide +kernel
  have hu : Uncommented "'\"\\'/ *\\/'".toList := by
    unfold Uncommented
    decide +kernel
  obtain ⟨hvalue, hsheet⟩ := read_literal_iff h
  exact ⟨h, hvalue.2 hu, hsheet.2 hu⟩

/-- What looks like a comment is taken for one, and the literal loses its end. -/
theorem exists_readValue_literal_ne : lexemes "\"/*\"" = [⟨.quoted .double, "\"/*\""⟩] ∧
    readValue "\"/*\"" = .ok ⟨"\"   ", false⟩ ∧
      Sheet.read ".a\x7bp:\"/*\"\x7d" ≠ .ok (.ofItems [.rule ".a" [⟨"p", ⟨"\"/*\"", false⟩⟩]]) :=
  ⟨by decide +kernel, by decide +kernel, by decide +kernel⟩

end TieredStyle.Css
