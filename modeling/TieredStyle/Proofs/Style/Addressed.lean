import TieredStyle.Proofs.Grammar.Headed
import TieredStyle.Proofs.Grammar.Normalized
import TieredStyle.Proofs.Grammar.Padded
import TieredStyle.PseudoState

/-!
# A state behind a selector or behind its normalized text

An update puts the state behind the selector that it is given and reads the whole, a projection reads the selector
first and puts the state behind what it has read. Both ask for the same rule unless the selector ends in blanks that
count before a colon: these stay in the one and not in the other.
-/
namespace TieredStyle.Css
open TieredStyle.Text
open Token (bare)

/-! ## Selectors with the same lexemes -/

/-- Where the lexemes are the same, only blanks can tell what is read apart, and they make no other error. -/
theorem readSelector_eq_iff {x y : String}
    (h : (Token.ofText x).map (·.toLexeme) = (Token.ofText y).map (·.toLexeme)) :
    (readSelector x).mapError ParseError.placeless = (readSelector y).mapError ParseError.placeless ↔
      (∀ z, readSelector y ≠ .ok z) ∨
        Spacing.selector.join (Token.ofText x) = Spacing.selector.join (Token.ofText y) := by
  obtain ⟨htaken, hrest⟩ := forall₂_collect (fun _ _ htu => congrArg Lexeme.kind htu) (forall₂_lexeme h) endsHead 0
  have hx := collect_append endsHead 0 (Token.ofText x)
  have hy := collect_append endsHead 0 (Token.ofText y)
  obtain ⟨taken, rest, hcx⟩ : ∃ taken rest, collect endsHead 0 (Token.ofText x) = (taken, rest) := ⟨_, _, rfl⟩
  obtain ⟨taken', rest', hcy⟩ : ∃ taken rest, collect endsHead 0 (Token.ofText y) = (taken, rest) := ⟨_, _, rfl⟩
  rw [hcx, hcy] at htaken hrest
  rw [hcx] at hx
  rw [hcy] at hy
  rw [readSelector, readSelector, hcx, hcy, ← hx, ← hy]
  cases hrest with
  | @cons t u _ _ hlexeme _ =>
      refine iff_of_true ?_ (.inl fun z hz => by cases hz)
      have htext : u.text = t.text := congrArg Lexeme.text hlexeme
      change Except.error (ParseError.unexpectedToken {} (.trailing t.text)) =
        Except.error (ParseError.unexpectedToken {} (.trailing u.text))
      rw [htext]
  | nil =>
      cases htaken with
      | nil => exact iff_of_true rfl (.inl fun z hz => by cases hz)
      | @cons t u ts us _ _ =>
          rw [List.append_nil, List.append_nil]
          refine ⟨fun he => .inr (Except.ok.inj he), ?_⟩
          rintro (hne | hjoin)
          · exact absurd rfl (hne _)
          · exact congrArg Except.ok hjoin

/-! ## Texts joined in parts -/

theorem Spacing.join_append (s : Spacing) (ts us : List Token) (t u : Token) :
    s.join (ts ++ t :: u :: us) = s.join (ts ++ [t]) ++ s.gap t u ++ s.join (u :: us) := by
  induction ts with
  | nil => rfl
  | cons a ts ih =>
      cases ts with
      | nil =>
          change a.text ++ s.gap a t ++ (t.text ++ s.gap t u ++ s.join (u :: us)) =
            a.text ++ s.gap a t ++ t.text ++ s.gap t u ++ s.join (u :: us)
          simp only [String.append_assoc]
      | cons b ts =>
          simp only [List.cons_append, Spacing.join] at ih ⊢
          rw [ih]
          simp only [String.append_assoc]

/-! ## A colon behind a text -/

theorem inComment_of_uncommented {cs : List Char} (h : Uncommented cs) : inComment false cs = false := by
  induction cs with
  | nil => rfl
  | cons c cs ih =>
      obtain ⟨hstart, hcs⟩ := uncommented_cons.1 h
      rw [inComment]
      · exact ih hcs
      · rintro ds _ rfl rfl
        exact hstart rfl rfl
      · exact fun ds hb _ _ => by cases hb

theorem blankComments_colon {cs : List Char} (h : inComment false cs = false) (ds : List Char) :
    blankComments (cs ++ ':' :: ds) = blankComments cs ++ ':' :: blankComments ds := by
  have hcolon : blankComments (':' :: ds) = ':' :: blankComments ds := by
    rw [blankComments, blankFrom]
    · rfl
    · exact fun ds hc _ => by cases hc
  rw [blankComments_append h ?_, hcolon]
  exact fun _ hc => by cases hc

theorem toList_append_colon (x k : String) : (x ++ ":" ++ k).toList = x.toList ++ ':' :: k.toList := by
  rw [String.toList_append, String.toList_append, List.append_assoc]
  rfl

/-- A colon behind a text. -/
def colon (b : Bool) (pos : Position) : Token := ⟨⟨.mark .colon, ":"⟩, b, pos⟩

theorem scan_colon (pos : Position) (b : Bool) (cs : List Char) :
    Token.scan pos b (':' :: cs) = colon b pos :: Token.scan (pos.skip [':']) false cs :=
  Token.scan_stops (stops_mark (m := .colon) (by decide) cs) pos b

theorem ends_colon (cs : List Char) : Ends (':' :: cs) := ends_cons.2 (by decide)

/-- Behind a text there are blanks before a colon unless the last token ends where the text does. -/
theorem ofText_colon {x : String} (k : String) (hclosed : inComment false x.toList = false)
    (hopen : ∀ t ∈ Token.ofText x, t.isOpenLiteral = false) : ∃ b,
      Token.ofText (x ++ ":" ++ k) = Token.ofText x ++ Token.scan (place x) b (':' :: blankComments k.toList) ∧
        ∀ ts t, Token.ofText x = ts ++ [t] → (b = true ↔ t.stop ≠ place x) := by
  obtain ⟨b, hcut⟩ := Token.cutInto_scan {} false (blankComments x.toList)
  have hcolon := hcut.alike (.ends ends_nil (ends_colon (blankComments k.toList))) hopen
    (.inr fun c hc => by cases hc; decide)
  refine ⟨b, ?_, fun ts t hts => ?_⟩
  · rw [Token.ofText, toList_append_colon, blankComments_colon hclosed]
    exact hcolon.scan
  · rw [show Token.scan {} false (blankComments x.toList) = ts ++ [t] from hts] at hcut
    exact hcut.spaced_iff

/-- Behind a normalized text there are none. -/
theorem ofText_join_colon {x : String} (k : String) (hopen : ∀ t ∈ Token.ofText x, t.isOpenLiteral = false)
    (hne : Token.ofText x ≠ []) : ∃ us pos,
      Token.ofText (Spacing.selector.join (Token.ofText x) ++ ":" ++ k) =
        us ++ Token.scan pos false (':' :: blankComments k.toList) ∧
          bare us = bare (Spacing.selector.tightened (Token.ofText x)) := by
  obtain ⟨us, pos, hscan, hbare⟩ := scan_join_before (s := .selector) (r := ':' :: blankComments k.toList) hopen hne
    (ends_colon _) (fun c hc => by cases hc; decide)
  have hu := uncommented_join_ofText (s := .selector) hopen (by decide)
  refine ⟨us, pos, ?_, hbare⟩
  rw [Token.ofText, toList_append_colon, blankComments_colon (inComment_of_uncommented hu),
    blankComments_of_uncommented hu, hscan]

theorem lexeme_scan (pos pos' : Position) (b b' : Bool) (cs : List Char) :
    (Token.scan pos b cs).map (·.toLexeme) = (Token.scan pos' b' cs).map (·.toLexeme) := by
  rw [← Token.lexeme_bare, Token.bare_scan pos pos' b b', Token.lexeme_bare]

/-! ## The same rule -/

/-- Blanks or comments that count before a colon end the text. -/
def Trails (x : String) : Prop :=
  ∃ t ∈ (Token.ofText x).getLast?, t.stop ≠ place x ∧ Spacing.selector.tight t.kind (.mark .colon) = false

instance (x : String) : Decidable (Trails x) :=
  inferInstanceAs (Decidable (∃ t ∈ (Token.ofText x).getLast?,
    t.stop ≠ place x ∧ Spacing.selector.tight t.kind (.mark .colon) = false))

theorem gap_colon_eq_iff {x : String} {t : Token} {b : Bool} (h : t ∈ (Token.ofText x).getLast?)
    (hb : b = true ↔ t.stop ≠ place x) (pos : Position) : Spacing.selector.gap t (colon b pos) = "" ↔ ¬Trails x := by
  rw [Option.mem_def] at h
  simp only [Trails, h, Option.mem_some_iff, exists_eq_left', ← hb, Spacing.gap, colon]
  cases b <;> simp

theorem join_colon_eq_iff {x : String} {us : List Token} {b : Bool} (hne : Token.ofText x ≠ [])
    (hb : ∀ ts t, Token.ofText x = ts ++ [t] → (b = true ↔ t.stop ≠ place x))
    (hus : bare us = bare (Spacing.selector.tightened (Token.ofText x))) (pos pos' : Position) (ds : List Char) :
    Spacing.selector.join (Token.ofText x ++ Token.scan pos b (':' :: ds)) =
      Spacing.selector.join (us ++ Token.scan pos' false (':' :: ds)) ↔ ¬Trails x := by
  have hjoin : Spacing.selector.join us = Spacing.selector.join (Token.ofText x) := Spacing.join_of_tightened hus
  have hcolon : Spacing.selector.join (Token.scan pos b (':' :: ds)) =
      Spacing.selector.join (Token.scan pos' false (':' :: ds)) :=
    Spacing.join_of_bare (Token.bare_scan _ _ _ _ _)
  have hne' : us ≠ [] := by
    rintro rfl
    have hnil := congrArg List.length (Token.kind_of_bare hus)
    rw [Spacing.kind_tightened, List.map_nil, List.length_map] at hnil
    exact hne (List.eq_nil_of_length_eq_zero hnil.symm)
  obtain ⟨us, u, rfl⟩ := us.eq_nil_or_concat.resolve_left hne'
  obtain ⟨ts, t, hts⟩ := (Token.ofText x).eq_nil_or_concat.resolve_left hne
  rw [List.concat_eq_append] at hts hjoin ⊢
  have hlast : t ∈ (Token.ofText x).getLast? := by
    rw [hts, List.getLast?_concat]
    rfl
  have hleft : Spacing.selector.join (Token.ofText x ++ Token.scan pos b (':' :: ds)) =
      Spacing.selector.join (Token.ofText x) ++ Spacing.selector.gap t (colon b pos) ++
        Spacing.selector.join (Token.scan pos b (':' :: ds)) := by
    rw [hts, scan_colon, List.append_assoc, List.singleton_append, Spacing.join_append]
  have hright : Spacing.selector.join (us ++ [u] ++ Token.scan pos' false (':' :: ds)) =
      Spacing.selector.join (Token.ofText x) ++ "" ++ Spacing.selector.join (Token.scan pos b (':' :: ds)) := by
    rw [hcolon, scan_colon, List.append_assoc, List.singleton_append, Spacing.join_append, hjoin]
    rfl
  rw [hleft, hright, String.append_left_inj, String.append_right_inj, gap_colon_eq_iff hlast (hb ts t hts)]

/-- With a state behind it a selector, in which each comment and each string literal has an end, is read as its
normalized text is with that state behind it, or both fail alike, unless blanks that count before a colon end the
selector. -/
theorem readSelector_select_iff {x n k : String} (hclosed : inComment false x.toList = false)
    (hopen : ∀ t ∈ Token.ofText x, t.isOpenLiteral = false) (h : readSelector x = .ok n) :
    (readSelector (PseudoState.select x k)).mapError ParseError.placeless =
        (readSelector (PseudoState.select n k)).mapError ParseError.placeless ↔
      k = PseudoState.base.key ∨ ¬Trails x ∨ ∀ y, readSelector (PseudoState.select n k) ≠ .ok y := by
  by_cases hk : k = PseudoState.base.key
  · refine iff_of_true ?_ (.inl hk)
    rw [PseudoState.select, PseudoState.select, if_pos hk, if_pos hk, h,
      readSelector_readSelector (Token.openLast_of_forall hopen) h]
  · obtain ⟨hne, hclear, rfl⟩ := readSelector_eq_ok.1 h
    obtain ⟨b, hx, hb⟩ := ofText_colon k hclosed hopen
    obtain ⟨us, pos, hn, hus⟩ := ofText_join_colon k hopen hne
    have hlexemes : us.map (·.toLexeme) = (Token.ofText x).map (·.toLexeme) := by
      rw [← Token.lexeme_bare, hus, Token.lexeme_bare, Spacing.lexeme_tightened]
    rw [PseudoState.select, PseudoState.select, if_neg hk, if_neg hk, readSelector_eq_iff, hx, hn,
      join_colon_eq_iff hne hb hus, or_comm, or_iff_right hk]
    rw [hx, hn, List.map_append, List.map_append, hlexemes, lexeme_scan]

/-- A comment stands before the last combinator, behind which the blanks mean nothing. -/
theorem readSelector_select_greater : inComment false ".a /*b*/ > ".toList = false ∧
    (∀ t ∈ Token.ofText ".a /*b*/ > ", t.isOpenLiteral = false) ∧ readSelector ".a /*b*/ > " = .ok ".a>" ∧
      ¬Trails ".a /*b*/ > " ∧
        (readSelector (PseudoState.select ".a /*b*/ > " "hover")).mapError ParseError.placeless =
          (readSelector (PseudoState.select ".a>" "hover")).mapError ParseError.placeless := by
  have hclosed : inComment false ".a /*b*/ > ".toList = false := by decide +kernel
  have hopen : ∀ t ∈ Token.ofText ".a /*b*/ > ", t.isOpenLiteral = false := by decide +kernel
  have hread : readSelector ".a /*b*/ > " = .ok ".a>" := by decide +kernel
  have htrails : ¬Trails ".a /*b*/ > " := by decide +kernel
  exact ⟨hclosed, hopen, hread, htrails, (readSelector_select_iff hclosed hopen hread).2 (.inr (.inl htrails))⟩

/-- The blank at the end makes the state that of another element, one inside. -/
theorem readSelector_select_ne : readSelector ".a " = .ok ".a" ∧
    readSelector (PseudoState.select ".a " PseudoState.hover.key) = .ok ".a :hover" ∧
      readSelector (PseudoState.select ".a" PseudoState.hover.key) = .ok ".a:hover" ∧
        readSelector (PseudoState.select ".a " PseudoState.hover.key) ≠
          readSelector (PseudoState.select ".a" PseudoState.hover.key) := by
  decide +kernel

end TieredStyle.Css
