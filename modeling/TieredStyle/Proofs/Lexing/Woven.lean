import TieredStyle.Proofs.Lexing.Lossless

/-!
# Lexemes with other blanks between them

Every lexeme that is plain ends where blanks begin, also where none stood behind it before. So the lexemes of a text
stay what they are when other blanks are put between them, as long as there are some.
-/
namespace TieredStyle.Css
open TieredStyle.Text

variable {l : Lexeme} {ls : List Lexeme} {lead gap r : List Char} {gaps : List (List Char)}

theorem woven_cons : woven lead (l :: ls) (gap :: gaps) = lead ++ (l.text.toList ++ woven gap ls gaps) := by
  rw [woven, List.zip_cons_cons, List.flatMap_cons, List.append_assoc, ← woven]

/-- Behind a lexeme there are blanks or there is nothing more. -/
theorem ends_woven (hlength : gaps.length = ls.length) (hgap : ∀ c ∈ gap, isBlank c = true)
    (hgaps : ∀ gap' ∈ (gap :: gaps).dropLast, gap' ≠ []) : Ends (woven gap ls gaps) := by
  cases gap with
  | cons c gap => exact ends_cons.2 (isBreak_of_isBlank (hgap c List.mem_cons_self))
  | nil =>
      cases gaps with
      | cons gap' gaps => exact absurd rfl (hgaps [] List.mem_cons_self)
      | nil =>
          obtain rfl : ls = [] := List.eq_nil_of_length_eq_zero hlength.symm
          exact ends_nil

/-- A plain lexeme stops alone exactly as it does before blanks. -/
theorem Lexeme.Stops.before_ends (h : l.Stops r) (hplain : l.isPlain = true) {r' : List Char} (hr : Ends r') :
    l.Stops r' :=
  h.alone.alike_of_isPlain hplain (.ends ends_nil hr)

namespace Token

theorem scan_woven (hstops : ∀ l ∈ ls, l.isPlain = true ∧ ∃ r, l.Stops r) (hlength : gaps.length = ls.length)
    (hblank : ∀ gap ∈ lead :: gaps, ∀ c ∈ gap, isBlank c = true) (hgaps : ∀ gap ∈ gaps.dropLast, gap ≠ [])
    (pos : Position) (b : Bool) : (scan pos b (woven lead ls gaps)).map (·.toLexeme) = ls := by
  induction ls generalizing lead gaps pos b with
  | nil =>
      obtain ⟨pos', b', hscan⟩ := scan_blanks (hblank lead List.mem_cons_self) pos b []
      rw [woven, List.zip_nil_left, List.flatMap_nil, hscan, scan_nil]
      rfl
  | cons l ls ih =>
      obtain ⟨gap, gaps, rfl⟩ := List.exists_cons_of_length_eq_add_one hlength
      obtain ⟨⟨hplain, r, hl⟩, hstops⟩ := List.forall_mem_cons.1 hstops
      obtain ⟨hlead, hblank⟩ := List.forall_mem_cons.1 hblank
      have hlength := Nat.succ.inj hlength
      have hrest : ∀ gap ∈ gaps.dropLast, gap ≠ [] := fun gap' hgap' => hgaps gap' (by
        cases gaps with
        | nil => cases hgap'
        | cons => exact List.mem_cons_of_mem _ hgap')
      obtain ⟨pos', b', hscan⟩ := scan_blanks hlead pos b (l.text.toList ++ woven gap ls gaps)
      have hbefore := hl.before_ends hplain (ends_woven hlength (hblank gap List.mem_cons_self) hgaps)
      rw [woven_cons, hscan, scan_stops hbefore, List.map_cons, ih hstops hlength hblank hrest]

end Token

/-- The lexemes of a text are those of every text that has them in order with blanks between them, if none of them is
a string literal with no end or an exclamation mark alone. -/
theorem lexemes_woven (s : String) (hopen : ∀ l ∈ lexemes s, l.isOpenLiteral = false)
    (hbang : ∀ l ∈ lexemes s, l.isLoneBang = false) (hlength : gaps.length = (lexemes s).length)
    (hblank : ∀ gap ∈ lead :: gaps, ∀ c ∈ gap, isBlank c = true) (hgaps : ∀ gap ∈ gaps.dropLast, gap ≠ []) :
    lexemes (String.ofList (woven lead (lexemes s) gaps)) = lexemes s := by
  have hstops : ∀ l ∈ lexemes s, l.isPlain = true ∧ ∃ r, l.Stops r := by
    intro l hl
    refine ⟨by rw [Lexeme.isPlain, hopen l hl, hbang l hl]; rfl, ?_⟩
    obtain ⟨t, ht, rfl⟩ := List.mem_map.1 hl
    exact Token.stops_of_mem_scan t ht
  rw [lexemes, String.toList_ofList]
  exact Token.scan_woven hstops hlength hblank hgaps {} false

/-- The first three lexemes touch, and two of them have blanks of their own. -/
theorem lexemes_woven_touching :
    (∀ l ∈ lexemes "1px-2%'b c'! IMPORTANT", l.isOpenLiteral = false) ∧
      (∀ l ∈ lexemes "1px-2%'b c'! IMPORTANT", l.isLoneBang = false) ∧
        lexemes "1px\n-2%\t 'b c'\x0c! IMPORTANT\r" = lexemes "1px-2%'b c'! IMPORTANT" := by
  have hopen : ∀ l ∈ lexemes "1px-2%'b c'! IMPORTANT", l.isOpenLiteral = false := by decide +kernel
  have hbang : ∀ l ∈ lexemes "1px-2%'b c'! IMPORTANT", l.isLoneBang = false := by decide +kernel
  have hblank : ∀ gap ∈ [[], ['\n'], ['\t', ' '], ['\x0c'], ['\r']], gap.all isBlank = true := by decide
  have hwoven := @lexemes_woven [] [['\n'], ['\t', ' '], ['\x0c'], ['\r']] "1px-2%'b c'! IMPORTANT" hopen hbang
    (by decide +kernel) (fun gap hgap => List.all_eq_true.1 (hblank gap hgap)) (by decide)
  have htext : String.ofList (woven [] (lexemes "1px-2%'b c'! IMPORTANT")
      [['\n'], ['\t', ' '], ['\x0c'], ['\r']]) = "1px\n-2%\t 'b c'\x0c! IMPORTANT\r" := by decide +kernel
  rw [htext] at hwoven
  exact ⟨hopen, hbang, hwoven⟩

end TieredStyle.Css
