import TieredStyle.Proofs.Printing.Conserved
import TieredStyle.Proofs.Printing.Plain
import TieredStyle.Proofs.Printing.Tails
import TieredStyle.Proofs.Tree.Lines

/-!
# Only legible entries are read back

If entries are read from their own print then each of their texts is read where it was printed, so it is
cut there into its own tokens.
-/
namespace TieredStyle.Css
open TieredStyle.Text
open Token (scan)

variable {f : Format}

theorem Uncommented.left {cs ds : List Char} (h : Uncommented (cs ++ ds)) : Uncommented cs :=
  (List.isChain_append.1 h).1

theorem Uncommented.right {cs ds : List Char} (h : Uncommented (cs ++ ds)) : Uncommented ds :=
  (List.isChain_append.1 h).2.1

/-! ## First tokens -/

theorem DeclarationsRead.of_semicolon {t : Token} {ts rest : List Token} {ds : List Declaration}
    (ht : t.kind = .mark .semicolon) (h : DeclarationsRead (t :: ts) ds rest) :
    DeclarationsRead ts ds rest := by
  cases h with
  | close hc =>
      rw [Token.is_iff, ht] at hc
      cases hc
  | skip _ h => exact h
  | declare hk =>
      rw [ht] at hk
      cases hk

theorem DeclarationsRead.of_braceClose {t : Token} {ts rest : List Token}
    (ht : t.kind = .mark .braceClose) (h : DeclarationsRead (t :: ts) [] rest) : rest = ts := by
  cases h with
  | close _ => rfl
  | skip hs =>
      rw [Token.is_iff, ht] at hs
      cases hs

theorem ItemsRead.of_semicolon {depth : Nat} {t : Token} {ts rest : List Token} {items : List Item}
    (ht : t.kind = .mark .semicolon) (h : ItemsRead depth (t :: ts) items rest) :
    ItemsRead depth ts items rest := by
  cases h with
  | close _ hc =>
      rw [Token.is_iff, ht] at hc
      cases hc
  | skip _ h => exact h
  | rule _ hend =>
      rw [ht] at hend
      cases hend
  | statement hk =>
      rw [ht] at hk
      cases hk
  | descriptors hk =>
      rw [ht] at hk
      cases hk
  | group hk =>
      rw [ht] at hk
      cases hk

theorem ItemsRead.of_braceClose {depth : Nat} {t : Token} {ts rest : List Token}
    (ht : t.kind = .mark .braceClose) (h : ItemsRead depth (t :: ts) [] rest) : rest = ts := by
  cases h with
  | close _ _ => rfl
  | skip hs =>
      rw [Token.is_iff, ht] at hs
      cases hs

/-- The first token of a text that starts with neither a blank nor a semicolon. -/
theorem exists_scan_cons {c : Char} (hc : isBlank c = false) (hs : c ≠ ';') (cs : List Char)
    (pos : Position) (b : Bool) :
    ∃ t ts, scan pos b (c :: cs) = t :: ts ∧ t.is .semicolon = false := by
  obtain ⟨l, r, hcs, hl⟩ := Token.exists_stops hc cs
  refine ⟨⟨l, b, pos⟩, scan (pos.skip l.text.toList) false r, ?_, ?_⟩
  · rw [hcs, Token.scan_stops hl]
  · rw [Token.is, decide_eq_false_iff_not]
    intro hk
    rw [hl.text_of_mark hk] at hcs
    exact hs (List.cons.inj hcs).1

/-- What tokens of which the first ends no head join to. -/
theorem exists_cons_join {s : Spacing} {t : Token} (ts : List Token) {r : List Char} (ht : t.Stops r)
    (hend : endsHead t.kind = false) :
    ∃ c cs, (s.join (t :: ts)).toList = c :: cs ∧ isBlank c = false ∧ c ≠ ';' := by
  obtain ⟨c, cs, htext, hc, hm⟩ := ht
  refine ⟨c, cs ++ Token.spelling (s.tighten t.kind ts), ?_, hc, fun he => ?_⟩
  · rw [s.toList_join]
    simp [Spacing.tightened, Token.spelled, Token.bare, Token.spelling, Token.spelling_unplaced, htext]
  · rw [he, show ';' = Mark.semicolon.char from rfl, munch_mark (by decide)] at hm
    rw [← (Prod.mk.inj hm).1] at hend
    cases hend

/-! ## Declarations -/

theorem DeclarationsRead.property {ts rest : List Token} {d : Declaration} {ds : List Declaration}
    (h : DeclarationsRead ts (d :: ds) rest) (hs : ∀ t ∈ ts, ∃ r, t.Stops r) :
    ∃ r, (⟨.ident, d.property⟩ : Lexeme).Stops r := by
  generalize hds : d :: ds = all at h
  induction h with
  | close => cases hds
  | skip _ _ ih => exact ih (fun t ht => hs t (List.mem_cons_of_mem _ ht)) hds
  | @declare t _ _ _ _ _ _ _ hk =>
      cases hds
      obtain ⟨r, hr⟩ := hs t List.mem_cons_self
      rw [show t.toLexeme = ⟨.ident, t.text⟩ by rw [← hk]] at hr
      exact ⟨r, hr⟩

theorem startsName_of_ident {x : String} {r : List Char} (h : (⟨.ident, x⟩ : Lexeme).Stops r) :
    ∃ c cs, x.toList = c :: cs ∧ isBlank c = false ∧ c ≠ ';' := by
  obtain ⟨c, cs, ht, hc, hm⟩ := h
  refine ⟨c, cs, ht, hc, fun he => ?_⟩
  rw [he, show ';' = Mark.semicolon.char from rfl, munch_mark (by decide)] at hm
  cases hm

/-- A value that is read in front of what is printed after it. -/
theorem cut_of_takeValue {v : Value} {c : Char} (hc : c ∈ [';', '\x7d']) {r : List Char}
    {pos : Position} {b : Bool} {us : List Token} {e : Token} (hu : Uncommented v.text.toList)
    (h : takeValue (scan pos b (v.text.toList ++ (v.mark f ++ c :: r))) = (v, e :: us)) :
    Cut .value (Passes endsValue 0) (f.isSpaced && v.important) v.text ∧
      ∃ pos' b', e :: us = scan pos' b' (c :: r) := by
  obtain ⟨taken, rest, hts, htext, _, hpasses, hrest⟩ := takeValue_eq_cons h
  obtain ⟨text, important⟩ := v
  dsimp only at htext hrest hts hu ⊢
  subst htext
  obtain ⟨pos₁, b₁, hscan⟩ := scan_after_join hts
  cases important with
  | true =>
      rw [Bool.and_true]
      have hmark : Value.mark f ⟨Spacing.value.join taken, true⟩ ++ c :: r =
          f.space ++ '!' :: ("important".toList ++ c :: r) := by simp [Value.mark]
      rw [hmark] at hts hscan
      obtain ⟨pos₂, b₂, hblanks⟩ := Token.scan_blanks f.blank_space pos₁ b₁
        ('!' :: ("important".toList ++ c :: r))
      rw [hblanks, show '!' :: ("important".toList ++ c :: r) = "!important".toList ++ c :: r from rfl,
        Token.scan_stops (stops_important (c :: r))] at hscan
      refine ⟨cut_of_scan hu hpasses (f.tail_space (by decide) _) hts, ?_⟩
      rcases hrest with ⟨_, hfalse⟩ | ⟨i, rfl, _, _⟩
      · cases hfalse
      · exact ⟨_, _, (List.cons.inj hscan).2⟩
  | false =>
      rw [Bool.and_false]
      have hmark : Value.mark f ⟨Spacing.value.join taken, false⟩ ++ c :: r = c :: r := rfl
      rw [hmark] at hts hscan
      have htail : Tail false (c :: r) := .flush r (by
        simp only [List.mem_cons, List.not_mem_nil, or_false] at hc
        rcases hc with rfl | rfl <;> decide)
      refine ⟨cut_of_scan hu hpasses htail hts, ?_⟩
      rcases hrest with ⟨rfl, _⟩ | ⟨i, _, _, htrue⟩
      · exact ⟨pos₁, b₁, hscan⟩
      · cases htrue

theorem DeclarationsRead.after_terminator {isLast : Bool} {x : List Char} {pos : Position} {b : Bool}
    {ds : List Declaration} {rest : List Token}
    (h : DeclarationsRead (scan pos b (f.terminator isLast ++ x)) ds rest) :
    ∃ pos' b', DeclarationsRead (scan pos' b' x) ds rest := by
  have hpast : ∀ w : List Char, (∀ c ∈ w, isBlank c = true) →
      DeclarationsRead (scan pos b (';' :: (w ++ x))) ds rest →
      ∃ pos' b', DeclarationsRead (scan pos' b' x) ds rest := by
    intro w hw h
    obtain ⟨e, pos', b', he, hscan⟩ :=
      Token.scan_mark_blanks (m := .semicolon) (by decide) hw pos b x
    rw [show ';' = Mark.semicolon.char from rfl, hscan] at h
    exact ⟨pos', b', h.of_semicolon he⟩
  cases f with
  | pretty => exact hpast ['\n'] (List.all_eq_true.1 (by decide)) h
  | compact =>
      cases isLast with
      | false => exact hpast [] (List.forall_mem_nil _) h
      | true => exact ⟨pos, b, h⟩

/-- A declaration that is read in front of what ends it, and the declarations read after it. -/
theorem DeclarationsRead.legible_of_cons {d : Declaration} {ds : List Declaration} {c : Char}
    (hc : c ∈ [';', '\x7d']) {r : List Char} {pos : Position} {b : Bool} {rest : List Token}
    (hu : Uncommented (d.printed f))
    (h : DeclarationsRead (scan pos b (d.property.toList ++ ':' :: (f.space ++
      (d.value.text.toList ++ (d.value.mark f ++ c :: r))))) (d :: ds) rest) :
    d.Legible f ∧ ∃ pos' b', DeclarationsRead (scan pos' b' (c :: r)) ds rest := by
  obtain ⟨_, hstops⟩ := h.property Token.stops_of_mem_scan
  obtain ⟨p, ps, hp, hblank, hsemi⟩ := startsName_of_ident hstops
  obtain ⟨t, ts, hscan, ht⟩ := exists_scan_cons hblank hsemi
    (ps ++ ':' :: (f.space ++ (d.value.text.toList ++ (d.value.mark f ++ c :: r)))) pos b
  rw [← List.cons_append, ← hp] at hscan
  rw [hscan] at h
  cases h with
  | skip hs =>
      rw [hs] at ht
      cases ht
  | @declare _ u e us vs _ value _ hk hcolon hv he hds =>
      obtain ⟨htstops, pos₁, hus⟩ := Token.scan_eq_cons_of_text hscan
      obtain ⟨u', pos₂, b₂, _, hmark⟩ := Token.scan_mark_blanks (m := .colon) (by decide)
        f.blank_space pos₁ false (value.text.toList ++ (value.mark f ++ c :: r))
      rw [show ':' = Mark.colon.char from rfl, hmark] at hus
      rw [(List.cons.inj hus).2] at hv
      simp only [Declaration.printed] at hu
      obtain ⟨hcut, pos', b', hterminated⟩ :=
        cut_of_takeValue hc (uncommented_cons.1 hu.right).2.right.left hv
      rw [hterminated] at hds
      refine ⟨⟨fun z => ?_, hu.left, hcut⟩, pos', b', hds⟩
      rw [show (⟨.ident, t.text⟩ : Lexeme) = t.toLexeme by rw [← hk]]
      exact htstops.alike_of_isPlain (by simp [Lexeme.isPlain, Lexeme.isOpenLiteral,
        Lexeme.isLoneBang, hk]) (.ends (ends_cons.2 (by decide)) (ends_cons.2 (by decide)))

theorem DeclarationsRead.legible_of_printed {ds : List Declaration} {depth depth' : Nat}
    {r : List Char} {pos : Position} {b : Bool} {rest : List Token}
    (hu : Uncommented (printedDeclarations f depth ds))
    (h : DeclarationsRead
      (scan pos b (printedDeclarations f depth ds ++ (f.margin depth' ++ '\x7d' :: r))) ds rest) :
    (∀ d ∈ ds, d.Legible f) ∧ ∃ pos' b', rest = scan pos' b' r := by
  induction ds generalizing pos b with
  | nil =>
      obtain ⟨pos₁, b₁, hblanks⟩ := Token.scan_blanks (f.blank_margin depth') pos b ('\x7d' :: r)
      obtain ⟨e, pos₂, he, hscan⟩ := Token.scan_mark (m := .braceClose) (by decide) pos₁ b₁ r
      rw [printedDeclarations, List.nil_append, hblanks, show '\x7d' = Mark.braceClose.char from rfl,
        hscan] at h
      exact ⟨fun d hd => (by cases hd), pos₂, false, h.of_braceClose he⟩
  | cons d ds ih =>
      obtain ⟨c, r', hc, hterm⟩ := exists_terminator_eq_cons f depth depth' ds r
      obtain ⟨pos₁, b₁, hmargin⟩ := Token.scan_blanks (f.blank_margin depth) pos b
        (d.property.toList ++ ':' :: (f.space ++
          (d.value.text.toList ++ (d.value.mark f ++ c :: r'))))
      rw [printedDeclarations_cons_append hterm, hmargin] at h
      rw [printedDeclarations] at hu
      obtain ⟨hd, pos₂, b₂, hds⟩ := h.legible_of_cons hc hu.right.left
      rw [← hterm] at hds
      obtain ⟨pos₃, b₃, hds⟩ := hds.after_terminator
      obtain ⟨hlegible, hrest⟩ := ih hu.right.right.right hds
      exact ⟨List.forall_mem_cons.2 ⟨hd, hlegible⟩, hrest⟩

/-! ## Blocks and heads -/

theorem Format.uncommented_of_block {depth : Nat} {isEmpty : Bool} {contents : List Char}
    (h : isEmpty = true → contents = []) (hu : Uncommented (f.block depth isEmpty contents)) :
    Uncommented contents := by
  cases isEmpty with
  | true =>
      rw [h rfl]
      exact .nil
  | false =>
      have hbody := (uncommented_cons.1 hu.right).2.left
      simp only [Bool.false_eq_true, ↓reduceIte] at hbody
      exact hbody.left.right

theorem DeclarationsRead.legible_of_block {ds : List Declaration} {indent : Nat} {r : List Char}
    {pos : Position} {b : Bool} {e : Token} {us rest : List Token}
    (hu : Uncommented (f.block indent ds.isEmpty (printedDeclarations f (indent + 1) ds)))
    (he : e :: us =
      scan pos b (f.block indent ds.isEmpty (printedDeclarations f (indent + 1) ds) ++ r))
    (h : DeclarationsRead us ds rest) : (∀ d ∈ ds, d.Legible f) ∧ ∃ pos' b', rest = scan pos' b' r := by
  obtain ⟨e', pos₁, b₁, depth', _, hscan⟩ :=
    scan_block f indent printedDeclarations_of_isEmpty r pos b
  rw [hscan] at he
  rw [(List.cons.inj he).2] at h
  obtain ⟨hlegible, pos₂, b₂, hrest⟩ :=
    h.legible_of_printed (Format.uncommented_of_block printedDeclarations_of_isEmpty hu)
  obtain ⟨pos', b', hnewline⟩ := Token.scan_blanks f.blank_newline pos₂ b₂ r
  exact ⟨hlegible, pos', b', hrest.trans hnewline⟩

theorem ne_nil_of_tail {y : List Char} (hy : Tail false y) (pos : Position) (b : Bool) :
    scan pos b y ≠ [] := by
  obtain ⟨c, cs, rfl, _, _, hc⟩ := hy.exists_cons
  obtain ⟨l, r, hcs, hl⟩ := Token.exists_stops hc cs
  rw [hcs, Token.scan_stops hl]
  exact List.cons_ne_nil _ _

/-- The head of an at-rule that is read in front of what is printed after it. -/
theorem headLegible_of_scan {spaced : Bool} {t : Token} {head us : List Token} {y : List Char}
    {pos : Position} {b : Bool} (ht : t.kind = .atKeyword) (hy : Tail spaced y)
    (hu : Uncommented (printedAtHead t.ruleName (Spacing.params.join head)))
    (h : scan pos b (printedAtHead t.ruleName (Spacing.params.join head) ++ y) = t :: (head ++ us)) :
    (∃ pos' b', us = scan pos' b' y) ∧
      (Passes endsHead 0 (head.map (·.kind)) →
        HeadLegible spaced t.ruleName (Spacing.params.join head)) := by
  obtain ⟨_, hkeyword⟩ := Token.stops_of_mem_scan t (by rw [h]; exact List.mem_cons_self)
  obtain ⟨cs, hcs, _⟩ := hkeyword.text_of_keyword ht
  have hname : '@' :: t.ruleName.toList = t.text.toList := by
    rw [Token.ruleName, hcs]
    simp
  rw [printedAtHead, hname] at h hu
  rw [List.append_assoc] at h
  obtain ⟨htext, pos₁, hrest⟩ := Token.scan_eq_cons_of_text h
  have hparams : ∃ pos₂ b₂, scan pos₂ b₂ ((Spacing.params.join head).toList ++ y) = head ++ us := by
    by_cases hp : Spacing.params.join head = ""
    · rw [if_pos hp] at hrest
      rw [hp]
      exact ⟨pos₁, false, hrest.symm⟩
    · rw [if_neg hp, List.cons_append, Token.scan_blank (by decide)] at hrest
      exact ⟨_, _, hrest.symm⟩
  obtain ⟨pos₂, b₂, hscan⟩ := hparams
  refine ⟨scan_after_join hscan, fun hpasses => ⟨fun r hr => ?_, ?_, ?_⟩⟩
  · rw [hname, String.ofList_toList, ← ht]
    exact htext.keyword ht hr
  · have := hu.left
    rw [← hname] at this
    exact this.tail
  · refine cut_of_scan ?_ hpasses hy hscan
    by_cases hp : Spacing.params.join head = ""
    · rw [hp]
      exact .nil
    · have := hu.right
      rw [if_neg hp] at this
      exact this.tail

/-! ## Entries -/

/-- An entry that is read from its print starts with neither a blank nor a semicolon. -/
theorem ItemsRead.exists_cons {depth : Nat} {ts rest : List Token} {item : Item} {items : List Item}
    (h : ItemsRead depth ts (item :: items) rest) (hs : ∀ t ∈ ts, ∃ r, t.Stops r) (indent : Nat) :
    ∃ c cs, item.printed f indent = f.margin indent ++ c :: cs ∧ isBlank c = false ∧ c ≠ ';' := by
  generalize hall : item :: items = all at h
  induction h with
  | finish => cases hall
  | close => cases hall
  | skip _ _ ih => exact ih (fun t ht => hs t (List.mem_cons_of_mem _ ht)) hall
  | @rule _ t e ts head us _ _ ds _ _ hend hc =>
      cases hall
      obtain ⟨head, rfl, _⟩ := exists_cons_of_collect hend hc
      obtain ⟨_, hr⟩ := hs t List.mem_cons_self
      obtain ⟨c, cs, hjoin, hblank, hsemi⟩ := exists_cons_join (s := .selector) head hr hend
      rw [Item.printed, hjoin]
      exact ⟨c, _, rfl, hblank, hsemi⟩
  | statement =>
      cases hall
      rw [Item.printed]
      exact ⟨'@', _, rfl, by decide, by decide⟩
  | descriptors =>
      cases hall
      rw [Item.printed]
      exact ⟨'@', _, rfl, by decide, by decide⟩
  | group =>
      cases hall
      rw [Item.printed]
      exact ⟨'@', _, rfl, by decide, by decide⟩

/-- The first token of a print from which an entry is read. -/
theorem ItemsRead.exists_first {depth indent : Nat} {item : Item} {items : List Item} {r : List Char}
    {pos : Position} {b : Bool} {rest : List Token}
    (h : ItemsRead depth (scan pos b (item.printed f indent ++ r)) (item :: items) rest) :
    ∃ x pos₁ b₁ t ts, item.printed f indent = f.margin indent ++ x ∧
      scan pos b (item.printed f indent ++ r) = t :: ts ∧ scan pos₁ b₁ (x ++ r) = t :: ts ∧
      t.is .semicolon = false := by
  obtain ⟨c, cs, hprinted, hblank, hsemi⟩ := h.exists_cons (f := f) Token.stops_of_mem_scan indent
  obtain ⟨pos₁, b₁, hmargin⟩ := Token.scan_blanks (f.blank_margin indent) pos b (c :: cs ++ r)
  obtain ⟨t, ts, hscan, ht⟩ := exists_scan_cons hblank hsemi (cs ++ r) pos₁ b₁
  refine ⟨c :: cs, pos₁, b₁, t, ts, hprinted, ?_, hscan, ht⟩
  rw [hprinted, List.append_assoc, hmargin]
  exact hscan

/-- The entries of a block, read from its print, if entries are so from theirs. -/
theorem ItemsRead.legible_of_block {depth indent : Nat} {items : List Item} {r : List Char}
    {pos : Position} {b : Bool} {e : Token} {us rest : List Token}
    (hof : ∀ {r pos b rest},
      ItemsRead (depth + 1) (scan pos b (printedItems f (indent + 1) items ++ r)) (items ++ []) rest →
      ItemsLegible f (depth + 1) items ∧ ∃ pos' b', ItemsRead (depth + 1) (scan pos' b' r) [] rest)
    (he : e :: us =
      scan pos b (f.block indent items.isEmpty (printedItems f (indent + 1) items) ++ r))
    (h : ItemsRead (depth + 1) us items rest) :
    ItemsLegible f (depth + 1) items ∧ ∃ pos' b', rest = scan pos' b' r := by
  obtain ⟨e', pos₁, b₁, indent', _, hblock⟩ := scan_block f indent printedItems_of_isEmpty r pos b
  rw [hblock] at he
  have hall : ItemsRead (depth + 1) us (items ++ []) rest := by rwa [List.append_nil]
  rw [(List.cons.inj he).2] at hall
  obtain ⟨hlegible, pos₂, b₂, hclose⟩ := hof hall
  obtain ⟨u, pos', b', hbrace, hlast⟩ := Token.scan_close f indent' pos₂ b₂ r
  rw [hlast] at hclose
  exact ⟨hlegible, pos', b', hclose.of_braceClose hbrace⟩

section

variable {depth indent : Nat} {items : List Item} {r : List Char} {pos : Position} {b : Bool} {t : Token}
  {ts rest : List Token} {name params selector : String} {ds : List Declaration}

theorem ItemsRead.legible_rule
    (hu : Uncommented (selector.toList ++
      f.block indent ds.isEmpty (printedDeclarations f (indent + 1) ds)))
    (hscan : scan pos b (selector.toList ++
      (f.block indent ds.isEmpty (printedDeclarations f (indent + 1) ds) ++ r)) = t :: ts)
    (ht : t.is .semicolon = false) (h : ItemsRead depth (t :: ts) (.rule selector ds :: items) rest) :
    (Item.rule selector ds).Legible f depth ∧ ∃ pos' b', ItemsRead depth (scan pos' b' r) items rest := by
  cases h with
  | skip hs =>
      rw [hs] at ht
      cases ht
  | @rule _ _ e _ head us vs _ _ _ hk hend hc he hds hitems =>
      obtain ⟨hts, _, hpasses⟩ := collect_eq_cons hc
      have htail := f.tail_block indent ds.isEmpty (printedDeclarations f (indent + 1) ds) r
      have hselects : Selects (head.map (·.kind)) := by
        obtain ⟨_, rfl, _⟩ := exists_cons_of_collect hend hc
        exact ⟨hpasses, _, _, rfl, hk⟩
      rw [hts] at hscan
      obtain ⟨pos₂, b₂, hus⟩ := scan_after_join hscan
      obtain ⟨hbody, pos', b', hvs⟩ := hds.legible_of_block hu.right hus
      rw [hvs] at hitems
      exact ⟨⟨cut_of_scan hu.left hselects htail hscan, hbody⟩, pos', b', hitems⟩

theorem ItemsRead.legible_statement (hu : Uncommented (printedAtHead name params ++ ';' :: f.newline))
    (hscan : scan pos b (printedAtHead name params ++ ';' :: (f.newline ++ r)) = t :: ts)
    (ht : t.is .semicolon = false) (h : ItemsRead depth (t :: ts) (.statement name params :: items) rest) :
    (Item.statement name params).Legible f depth ∧
      ∃ pos' b', ItemsRead depth (scan pos' b' r) items rest := by
  cases h with
  | skip hs =>
      rw [hs] at ht
      cases ht
  | @statement _ _ _ head us _ _ hk hc _ hitems =>
      have hts := collect_append endsHead 0 ts
      rw [hc] at hts
      dsimp only at hts
      rw [← hts] at hscan
      have htail : Tail false (';' :: (f.newline ++ r)) := .flush _ (by decide)
      obtain ⟨⟨pos₂, b₂, hus⟩, hlegible⟩ := headLegible_of_scan hk htail hu.left hscan
      have hpasses : Passes endsHead 0 (head.map (·.kind)) := by
        cases us with
        | nil => exact absurd hus.symm (ne_nil_of_tail htail _ _)
        | cons e us => exact (collect_eq_cons hc).2.2
      obtain ⟨e, pos', b', he, hsemicolon⟩ :=
        Token.scan_mark_blanks (m := .semicolon) (by decide) f.blank_newline pos₂ b₂ r
      rw [hus, show ';' = Mark.semicolon.char from rfl, hsemicolon] at hitems
      exact ⟨hlegible hpasses, pos', b', hitems.of_semicolon he⟩

theorem ItemsRead.legible_descriptors
    (hu : Uncommented (printedAtHead name params ++
      f.block indent ds.isEmpty (printedDeclarations f (indent + 1) ds)))
    (hscan : scan pos b (printedAtHead name params ++
      (f.block indent ds.isEmpty (printedDeclarations f (indent + 1) ds) ++ r)) = t :: ts)
    (ht : t.is .semicolon = false)
    (h : ItemsRead depth (t :: ts) (.descriptors name params ds :: items) rest) :
    (Item.descriptors name params ds).Legible f depth ∧
      ∃ pos' b', ItemsRead depth (scan pos' b' r) items rest := by
  cases h with
  | skip hs =>
      rw [hs] at ht
      cases ht
  | @descriptors _ _ e _ head us vs _ _ _ hk hn hc he hds hitems =>
      obtain ⟨hts, _, hpasses⟩ := collect_eq_cons hc
      have htail := f.tail_block indent ds.isEmpty (printedDeclarations f (indent + 1) ds) r
      rw [hts] at hscan
      obtain ⟨⟨pos₂, b₂, hus⟩, hlegible⟩ := headLegible_of_scan hk htail hu.left hscan
      obtain ⟨hbody, pos', b', hvs⟩ := hds.legible_of_block hu.right hus
      rw [hvs] at hitems
      exact ⟨⟨hn, hlegible hpasses, hbody⟩, pos', b', hitems⟩

/-- A group is legible if its entries are. -/
theorem ItemsRead.legible_group {body : List Item}
    (hbody : Uncommented (printedItems f (indent + 1) body) → ∀ {r pos b rest},
      ItemsRead (depth + 1) (scan pos b (printedItems f (indent + 1) body ++ r)) (body ++ []) rest →
      ItemsLegible f (depth + 1) body ∧ ∃ pos' b', ItemsRead (depth + 1) (scan pos' b' r) [] rest)
    (hu : Uncommented (printedAtHead name params ++
      f.block indent body.isEmpty (printedItems f (indent + 1) body)))
    (hscan : scan pos b (printedAtHead name params ++
      (f.block indent body.isEmpty (printedItems f (indent + 1) body) ++ r)) = t :: ts)
    (ht : t.is .semicolon = false) (h : ItemsRead depth (t :: ts) (.group name params body :: items) rest) :
    (Item.group name params body).Legible f depth ∧
      ∃ pos' b', ItemsRead depth (scan pos' b' r) items rest := by
  cases h with
  | skip hs =>
      rw [hs] at ht
      cases ht
  | @group _ _ e _ head us vs _ _ _ hk hn hc he hdepth hread hitems =>
      obtain ⟨hts, _, hpasses⟩ := collect_eq_cons hc
      have htail := f.tail_block indent body.isEmpty (printedItems f (indent + 1) body) r
      rw [hts] at hscan
      obtain ⟨⟨pos₂, b₂, hus⟩, hlegible⟩ := headLegible_of_scan hk htail hu.left hscan
      have hcontents := Format.uncommented_of_block printedItems_of_isEmpty hu.right
      obtain ⟨hitemsLegible, pos', b', hvs⟩ := hread.legible_of_block (hbody hcontents) hus
      rw [hvs] at hitems
      exact ⟨⟨hn, hdepth, hlegible hpasses, hitemsLegible⟩, pos', b', hitems⟩

end

mutual
theorem Item.legible_of_read {f : Format} {depth indent : Nat} {item : Item} {items : List Item}
    {r : List Char} {pos : Position} {b : Bool} {rest : List Token}
    (hu : Uncommented (item.printed f indent))
    (h : ItemsRead depth (scan pos b (item.printed f indent ++ r)) (item :: items) rest) :
    item.Legible f depth ∧ ∃ pos' b', ItemsRead depth (scan pos' b' r) items rest := by
  obtain ⟨x, pos₁, b₁, t, ts, hprinted, hfirst, hscan, ht⟩ := h.exists_first
  rw [hfirst] at h
  rw [hprinted] at hu
  replace hu := hu.right
  match item with
  | .rule selector body =>
      rw [Item.printed] at hprinted
      rw [← List.append_cancel_left hprinted] at hscan hu
      rw [List.append_assoc] at hscan
      exact h.legible_rule hu hscan ht
  | .statement name params =>
      rw [Item.printed] at hprinted
      rw [← List.append_cancel_left hprinted] at hscan hu
      rw [List.append_assoc, List.cons_append] at hscan
      exact h.legible_statement hu hscan ht
  | .descriptors name params body =>
      rw [Item.printed] at hprinted
      rw [← List.append_cancel_left hprinted] at hscan hu
      rw [List.append_assoc] at hscan
      exact h.legible_descriptors hu hscan ht
  | .group name params body =>
      rw [Item.printed] at hprinted
      rw [← List.append_cancel_left hprinted] at hscan hu
      rw [List.append_assoc] at hscan
      exact h.legible_group (fun hcontents => ItemsLegible.of_read hcontents) hu hscan ht

theorem ItemsLegible.of_read {f : Format} {depth indent : Nat} {items more : List Item}
    {r : List Char} {pos : Position} {b : Bool} {rest : List Token}
    (hu : Uncommented (printedItems f indent items))
    (h : ItemsRead depth (scan pos b (printedItems f indent items ++ r)) (items ++ more) rest) :
    ItemsLegible f depth items ∧ ∃ pos' b', ItemsRead depth (scan pos' b' r) more rest := by
  match items with
  | [] =>
      rw [printedItems] at h
      exact ⟨trivial, pos, b, h⟩
  | item :: items =>
      rw [printedItems] at hu
      rw [printedItems, List.append_assoc] at h
      obtain ⟨hitem, pos₁, b₁, hrest⟩ := item.legible_of_read hu.left h
      obtain ⟨hitems, pos', b', hmore⟩ := ItemsLegible.of_read hu.right hrest
      exact ⟨⟨hitem, hitems⟩, pos', b', hmore⟩
end

/-! ## Surviving a print -/

/-- Reading the print gives back what the stylesheet lists. -/
def Sheet.Survives (f : Format) (s : Sheet) : Prop :=
  ∃ again listing, Sheet.read (s.print f) = .ok again ∧ s.listing = .ok listing ∧
    again.listing = .ok listing

theorem survives_iff_legible {items : List Item} (hn : ItemsWellNamed items) :
    (Sheet.ofItems items).Survives f ↔ ItemsLegible f 0 items := by
  constructor
  · rintro ⟨again, listing, hread, hlisting, hagain⟩
    obtain ⟨items', hitems', hsheet⟩ := bind_eq_ok.1 hread
    cases hsheet
    rw [readItems_eq_ok_iff] at hitems'
    cases Sheet.ofItems_inj_of_listing hn hitems'.wellNamed (hlisting.trans hagain.symm)
    rw [Token.ofText, toList_print_ofItems] at hitems'
    have hu := uncommented_of_read hitems'
    rw [blankComments_of_uncommented hu] at hitems'
    have hall : ItemsRead 0 (scan {} false (printedItems f 0 items ++ [])) (items ++ []) [] := by
      rwa [List.append_nil, List.append_nil]
    exact (ItemsLegible.of_read hu hall).1
  · intro h
    have hlisting := Sheet.listing_ofItems items
    exact ⟨_, _, read_print_of_legible h, hlisting, hlisting⟩

end TieredStyle.Css
