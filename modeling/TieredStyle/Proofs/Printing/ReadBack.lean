import TieredStyle.Proofs.Printing.Legible

/-! # Legible entries are read back from their print -/
namespace TieredStyle.Css
open TieredStyle.Text
open Token (scan)

variable {f : Format}

theorem stops_important (r : List Char) : (⟨.important, "!important"⟩ : Lexeme).Stops r := by
  refine ⟨'!', "important".toList, rfl, by decide, ?_⟩
  have hn : runLength isBlank ("important".toList ++ r) = 0 := by
    show runLength isBlank ('i' :: _) = 0
    rw [runLength_cons]
    rfl
  have hi : startsImportant ("important".toList ++ r) = true := by
    simp [startsImportant]
  rw [munch, if_pos rfl, hn]
  dsimp only
  rw [List.drop_zero, if_pos hi]
  rfl

/-! ## Values -/

theorem takeValue_printed {v : Value}
    (h : Cut .value (Passes endsValue 0) (f.isSpaced && v.important) v.text) {c : Char}
    (hc : c ∈ [';', '\x7d']) (r : List Char) (pos : Position) (b : Bool) :
    ∃ pos' b', takeValue (scan pos b (v.text.toList ++ (v.mark f ++ c :: r))) =
      (v, scan pos' b' (c :: r)) := by
  obtain ⟨text, important⟩ := v
  cases important with
  | true =>
      rw [Bool.and_true] at h
      have htail := f.tail_space (c := '!') (by decide) ("important".toList ++ c :: r)
      obtain ⟨us, pos₁, b₁, hus, hjoin, hpasses⟩ := h.cuts htail pos b
      obtain ⟨pos₂, b₂, hblanks⟩ := Token.scan_blanks f.blank_space pos₁ b₁
        ('!' :: ("important".toList ++ c :: r))
      have himportant := Token.scan_stops (stops_important (c :: r)) pos₂ b₂
      refine ⟨pos₂.skip "!important".toList, false, ?_⟩
      have htext : Value.mark f ⟨text, true⟩ ++ c :: r =
          f.space ++ '!' :: ("important".toList ++ c :: r) := by simp [Value.mark]
      rw [htext, hus, hblanks]
      rw [show '!' :: ("important".toList ++ c :: r) = "!important".toList ++ c :: r from rfl,
        himportant, takeValue, collect_of_passes hpasses fun t ht => by cases ht; rfl]
      simp [takeImportant, hjoin]
  | false =>
      rw [Bool.and_false] at h
      have htail : Tail false (c :: r) := .flush r (by
        simp only [List.mem_cons, List.not_mem_nil, or_false] at hc
        rcases hc with rfl | rfl <;> decide)
      obtain ⟨us, pos₁, b₁, hus, hjoin, hpasses⟩ := h.cuts htail pos b
      obtain ⟨m, hm, hdot, hend⟩ : ∃ m : Mark, c = m.char ∧ m ≠ .dot ∧ endsHead (.mark m) = true := by
        simp only [List.mem_cons, List.not_mem_nil, or_false] at hc
        rcases hc with rfl | rfl
        · exact ⟨.semicolon, rfl, by decide, rfl⟩
        · exact ⟨.braceClose, rfl, by decide, rfl⟩
      obtain ⟨t, pos₂, ht, hscan⟩ := Token.scan_mark hdot pos₁ b₁ r
      refine ⟨pos₁, b₁, ?_⟩
      have htext : Value.mark f ⟨text, false⟩ ++ c :: r = c :: r := rfl
      rw [htext, hus, hm, hscan, takeValue, collect_of_passes hpasses fun u hu => by
        cases hu
        simp [endsValue, ht, hend]]
      simp [takeImportant, hjoin, ht]

/-! ## Declarations -/

/-- After a declaration stand the others, behind a semicolon unless there is none. -/
theorem declarationsRead_terminated {depth depth' : Nat} {ds : List Declaration} {r : List Char}
    (hds : ∀ pos b, ∃ pos' b', DeclarationsRead
      (scan pos b (printedDeclarations f depth ds ++ (f.margin depth' ++ '\x7d' :: r))) ds
      (scan pos' b' r)) :
    ∃ c r', c ∈ [';', '\x7d'] ∧ f.terminator ds.isEmpty ++
        (printedDeclarations f depth ds ++ (f.margin depth' ++ '\x7d' :: r)) = c :: r' ∧
      ∀ pos b, ∃ e us pos' b', scan pos b (c :: r') = e :: us ∧
        (e.is .semicolon = true ∨ e.is .braceClose = true) ∧
        DeclarationsRead (e :: us) ds (scan pos' b' r) := by
  have hsemicolon : ∀ w, (∀ c ∈ w, isBlank c = true) → ∀ pos b, ∃ e us pos' b',
      scan pos b (';' :: (w ++ (printedDeclarations f depth ds ++ (f.margin depth' ++ '\x7d' :: r)))) =
        e :: us ∧ (e.is .semicolon = true ∨ e.is .braceClose = true) ∧
        DeclarationsRead (e :: us) ds (scan pos' b' r) := by
    intro w hw pos b
    obtain ⟨e, pos₁, b₁, he, hscan⟩ := Token.scan_mark_blanks (m := .semicolon) (by decide) hw pos b
      (printedDeclarations f depth ds ++ (f.margin depth' ++ '\x7d' :: r))
    obtain ⟨pos', b', hread⟩ := hds pos₁ b₁
    exact ⟨e, _, pos', b', hscan, .inl (Token.is_iff.2 he), .skip (Token.is_iff.2 he) hread⟩
  cases f with
  | pretty => exact ⟨';', _, by decide, rfl, hsemicolon ['\n'] (List.all_eq_true.1 (by decide))⟩
  | compact =>
      cases ds with
      | cons d ds => exact ⟨';', _, by decide, rfl, hsemicolon [] (List.forall_mem_nil _)⟩
      | nil =>
          refine ⟨'\x7d', r, by decide, rfl, fun pos b => ?_⟩
          obtain ⟨e, pos₁, he, hscan⟩ := Token.scan_mark (m := .braceClose) (by decide) pos b r
          have he' : e.is .braceClose = true := Token.is_iff.2 he
          exact ⟨e, _, pos₁, false, hscan, .inr he', .close he'⟩

theorem declarationsRead_printed {ds : List Declaration} (h : ∀ d ∈ ds, d.Legible f)
    (depth depth' : Nat) (r : List Char) (pos : Position) (b : Bool) :
    ∃ pos' b', DeclarationsRead
      (scan pos b (printedDeclarations f depth ds ++ (f.margin depth' ++ '\x7d' :: r))) ds
      (scan pos' b' r) := by
  induction ds generalizing pos b with
  | nil =>
      obtain ⟨pos₁, b₁, hblanks⟩ := Token.scan_blanks (f.blank_margin depth') pos b ('\x7d' :: r)
      obtain ⟨e, pos₂, he, hscan⟩ := Token.scan_mark (m := .braceClose) (by decide) pos₁ b₁ r
      refine ⟨pos₂, false, ?_⟩
      rw [printedDeclarations, List.nil_append, hblanks]
      rw [show '\x7d' = Mark.braceClose.char from rfl, hscan]
      exact .close (Token.is_iff.2 he)
  | cons d ds ih =>
      have hd := h d List.mem_cons_self
      obtain ⟨c, r', hc, htext, hterminated⟩ :=
        declarationsRead_terminated fun pos b => ih (fun d hd => h d (List.mem_cons_of_mem _ hd)) pos b
      obtain ⟨pos₁, b₁, hmargin⟩ := Token.scan_blanks (f.blank_margin depth) pos b
        (d.property.toList ++ ':' :: (f.space ++
          (d.value.text.toList ++ (d.value.mark f ++ c :: r'))))
      have hproperty := Token.scan_stops
        (hd.property (f.space ++ (d.value.text.toList ++ (d.value.mark f ++ c :: r')))) pos₁ b₁
      obtain ⟨u, pos₃, b₃, hu, hcolon⟩ := Token.scan_mark_blanks (m := .colon) (by decide)
        f.blank_space (pos₁.skip d.property.toList) false
        (d.value.text.toList ++ (d.value.mark f ++ c :: r'))
      obtain ⟨pos₄, b₄, hvalue⟩ := takeValue_printed hd.value hc r' pos₃ b₃
      obtain ⟨e, us, pos', b', hscan, he, hread⟩ := hterminated pos₄ b₄
      refine ⟨pos', b', ?_⟩
      rw [printedDeclarations_cons_append htext, hmargin, hproperty]
      rw [show ':' = Mark.colon.char from rfl, hcolon]
      rw [hscan] at hvalue
      exact .declare rfl (Token.is_iff.2 hu) hvalue he hread

/-! ## Blocks and heads -/

/-- After the opening brace of a block stand its contents and the closing brace. -/
theorem scan_block (f : Format) (depth : Nat) {isEmpty : Bool} {contents : List Char}
    (h : isEmpty = true → contents = []) (r : List Char) (pos : Position) (b : Bool) :
    ∃ e pos' b' depth', e.kind = .mark .braceOpen ∧
      scan pos b (f.block depth isEmpty contents ++ r) =
        e :: scan pos' b' (contents ++ (f.margin depth' ++ '\x7d' :: (f.newline ++ r))) := by
  have hopen : ∀ cs, ∃ e pos', e.kind = .mark .braceOpen ∧
      scan pos b (f.space ++ '\x7b' :: cs) = e :: scan pos' false cs := by
    intro cs
    obtain ⟨pos₁, b₁, hspace⟩ := Token.scan_blanks f.blank_space pos b ('\x7b' :: cs)
    obtain ⟨e, pos₂, he, hscan⟩ := Token.scan_mark (m := .braceOpen) (by decide) pos₁ b₁ cs
    exact ⟨e, pos₂, he, hspace.trans hscan⟩
  cases isEmpty with
  | true =>
      obtain ⟨e, pos₁, he, hscan⟩ := hopen ('\x7d' :: (f.newline ++ r))
      refine ⟨e, pos₁, false, 0, he, ?_⟩
      have hmargin : f.margin 0 = [] := by cases f <;> rfl
      rw [h rfl, hmargin, List.nil_append, List.nil_append, ← hscan, Format.block, if_pos rfl,
        List.append_assoc, List.cons_append, List.nil_append, List.cons_append]
  | false =>
      obtain ⟨e, pos₁, he, hscan⟩ :=
        hopen (f.newline ++ (contents ++ (f.margin depth ++ '\x7d' :: (f.newline ++ r))))
      obtain ⟨pos₂, b₂, hnewline⟩ := Token.scan_blanks f.blank_newline pos₁ false
        (contents ++ (f.margin depth ++ '\x7d' :: (f.newline ++ r)))
      refine ⟨e, pos₂, b₂, depth, he, ?_⟩
      rw [← hnewline, ← hscan]
      simp [Format.block]

theorem declarationsRead_block {ds : List Declaration} (h : ∀ d ∈ ds, d.Legible f) (depth : Nat)
    (r : List Char) (pos : Position) (b : Bool) :
    ∃ e us pos' b', e.kind = .mark .braceOpen ∧
      scan pos b (f.block depth ds.isEmpty (printedDeclarations f (depth + 1) ds) ++ r) = e :: us ∧
      DeclarationsRead us ds (scan pos' b' r) := by
  obtain ⟨e, pos₁, b₁, depth', he, hscan⟩ :=
    scan_block f depth printedDeclarations_of_isEmpty r pos b
  obtain ⟨pos₂, b₂, hread⟩ := declarationsRead_printed h (depth + 1) depth' (f.newline ++ r) pos₁ b₁
  obtain ⟨pos', b', hnewline⟩ := Token.scan_blanks f.blank_newline pos₂ b₂ r
  rw [hnewline] at hread
  exact ⟨e, _, pos', b', he, hscan, hread⟩

theorem HeadLegible.scan_printed {spaced : Bool} {name params : String}
    (h : HeadLegible spaced name params) {r : List Char} (hr : Tail spaced r) (pos : Position)
    (b : Bool) :
    ∃ t us pos' b', scan pos b (printedAtHead name params ++ r) = t :: (us ++ scan pos' b' r) ∧
      t.kind = .atKeyword ∧ t.ruleName = name ∧ Spacing.params.join us = params ∧
      Passes endsHead 0 (us.map (·.kind)) := by
  have hname : ∀ pos b, Token.ruleName
      ⟨⟨.atKeyword, String.ofList ('@' :: name.toList)⟩, b, pos⟩ = name := by
    intro pos b
    simp [Token.ruleName]
  by_cases hp : params = ""
  · have hkeyword := Token.scan_stops (h.keyword r hr.ends) pos b
    rw [String.toList_ofList] at hkeyword
    refine ⟨_, [], pos.skip ('@' :: name.toList), false, ?_, rfl, hname pos b, hp.symm, rfl⟩
    rw [printedAtHead, if_pos hp, List.append_nil, hkeyword]
    rfl
  · have hkeyword := Token.scan_stops
      (h.keyword (' ' :: (params.toList ++ r)) (ends_cons.2 (by decide))) pos b
    rw [String.toList_ofList, Token.scan_blank (by decide)] at hkeyword
    obtain ⟨us, pos', b', hus, hjoin, hpasses⟩ := h.params.cuts hr
      (Position.advance (pos.skip ('@' :: name.toList)) ' ') true
    refine ⟨_, us, pos', b', ?_, rfl, hname pos b, hjoin, hpasses⟩
    have htext : ('@' :: name.toList ++ ' ' :: params.toList) ++ r =
        '@' :: name.toList ++ ' ' :: (params.toList ++ r) := by simp
    rw [printedAtHead, if_neg hp, htext, hkeyword, hus]

/-! ## Entries -/

theorem itemsRead_block {depth indent : Nat} {items : List Item}
    (h : ∀ r pos b, ∃ pos' b', ∀ more rest, ItemsRead (depth + 1) (scan pos' b' r) more rest →
      ItemsRead (depth + 1) (scan pos b (printedItems f (indent + 1) items ++ r)) (items ++ more) rest)
    (r : List Char) (pos : Position) (b : Bool) :
    ∃ e us pos' b', e.kind = .mark .braceOpen ∧
      scan pos b (f.block indent items.isEmpty (printedItems f (indent + 1) items) ++ r) = e :: us ∧
      ItemsRead (depth + 1) us items (scan pos' b' r) := by
  obtain ⟨e, pos₁, b₁, indent', he, hscan⟩ := scan_block f indent printedItems_of_isEmpty r pos b
  obtain ⟨pos₂, b₂, hitems⟩ :=
    h (f.margin indent' ++ '\x7d' :: (f.newline ++ r)) pos₁ b₁
  obtain ⟨u, pos', b', hu, hclose⟩ := Token.scan_close f indent' pos₂ b₂ r
  refine ⟨e, _, pos', b', he, hscan, ?_⟩
  have hread := hitems [] (scan pos' b' r) (by
    rw [hclose]
    exact .close (Nat.succ_ne_zero _) (Token.is_iff.2 hu))
  rwa [List.append_nil] at hread

section

variable {f : Format} {depth : Nat} {name params selector : String} {body : List Declaration}

/-- A rule is read in front of entries that are read. -/
theorem itemsRead_printed_rule (hselector : Cut .selector Selects f.isSpaced selector)
    (hbody : ∀ d ∈ body, d.Legible f) (indent : Nat) (r : List Char) (pos : Position) (b : Bool) :
    ∃ pos' b', ∀ items rest, ItemsRead depth (scan pos' b' r) items rest →
      ItemsRead depth (scan pos b (selector.toList ++
        (f.block indent body.isEmpty (printedDeclarations f (indent + 1) body) ++ r)))
        (.rule selector body :: items) rest := by
  have htail := f.tail_block indent body.isEmpty (printedDeclarations f (indent + 1) body) r
  obtain ⟨us, pos₁, b₁, hus, hjoin, hpasses, k, ks, hks, hk⟩ := hselector.cuts htail pos b
  obtain ⟨e, vs, pos', b', he, hblock, hread⟩ := declarationsRead_block hbody indent r pos₁ b₁
  refine ⟨pos', b', fun items rest hitems => ?_⟩
  cases us with
  | nil => cases hks
  | cons t us =>
      cases hks
      have hcollect : collect endsHead 0 (t :: (us ++ e :: vs)) = (t :: us, e :: vs) :=
        collect_of_passes hpasses fun u hu => by cases hu; rw [he]; rfl
      rw [hus, hblock, List.cons_append, ← hjoin]
      exact .rule hk (hpasses.1 rfl) hcollect (Token.is_iff.2 he) hread hitems

theorem itemsRead_printed_statement (hhead : HeadLegible false name params) (r : List Char) (pos : Position)
    (b : Bool) : ∃ pos' b', ∀ items rest, ItemsRead depth (scan pos' b' r) items rest →
      ItemsRead depth (scan pos b (printedAtHead name params ++ ';' :: (f.newline ++ r)))
        (.statement name params :: items) rest := by
  have htail : Tail false (';' :: (f.newline ++ r)) := .flush _ (by decide)
  obtain ⟨t, us, pos₁, b₁, hscan, ht, hname, hjoin, hpasses⟩ := hhead.scan_printed htail pos b
  obtain ⟨e, pos', b', he, hsemicolon⟩ :=
    Token.scan_mark_blanks (m := .semicolon) (by decide) f.blank_newline pos₁ b₁ r
  refine ⟨pos', b', fun items rest hitems => ?_⟩
  rw [hscan, ← hname, ← hjoin, show ';' = Mark.semicolon.char from rfl, hsemicolon]
  refine .statement ht (collect_of_passes hpasses fun u hu => by cases hu; rw [he]; rfl) ?_
    (.skip (Token.is_iff.2 he) hitems)
  intro u hu
  cases hu
  simp [Token.is, he]

theorem itemsRead_printed_descriptors (hholds : holdsItems name = false)
    (hhead : HeadLegible f.isSpaced name params) (hbody : ∀ d ∈ body, d.Legible f) (indent : Nat)
    (r : List Char) (pos : Position) (b : Bool) :
    ∃ pos' b', ∀ items rest, ItemsRead depth (scan pos' b' r) items rest →
      ItemsRead depth (scan pos b (printedAtHead name params ++
        (f.block indent body.isEmpty (printedDeclarations f (indent + 1) body) ++ r)))
        (.descriptors name params body :: items) rest := by
  have htail := f.tail_block indent body.isEmpty (printedDeclarations f (indent + 1) body) r
  obtain ⟨t, us, pos₁, b₁, hscan, ht, hname, hjoin, hpasses⟩ := hhead.scan_printed htail pos b
  obtain ⟨e, vs, pos', b', he, hblock, hread⟩ := declarationsRead_block hbody indent r pos₁ b₁
  refine ⟨pos', b', fun items rest hitems => ?_⟩
  rw [hscan, hblock, ← hjoin]
  rw [← hname] at hholds ⊢
  exact .descriptors ht hholds (collect_of_passes hpasses fun u hu => by cases hu; rw [he]; rfl)
    (Token.is_iff.2 he) hread hitems

end

mutual
theorem Item.Legible.read {f : Format} {depth : Nat} {item : Item} (h : item.Legible f depth)
    (indent : Nat) (r : List Char) (pos : Position) (b : Bool) :
    ∃ pos' b', ∀ items rest, ItemsRead depth (scan pos' b' r) items rest →
      ItemsRead depth (scan pos b (item.printed f indent ++ r)) (item :: items) rest := by
  match item with
  | .rule selector body =>
      rw [Item.Legible] at h
      rw [Item.printed, List.append_assoc, List.append_assoc]
      obtain ⟨pos₁, b₁, hmargin⟩ := Token.scan_blanks (f.blank_margin indent) pos b _
      rw [hmargin]
      exact itemsRead_printed_rule h.1 h.2 indent r pos₁ b₁
  | .statement name params =>
      rw [Item.Legible] at h
      rw [Item.printed, List.append_assoc, List.append_assoc, List.cons_append]
      obtain ⟨pos₁, b₁, hmargin⟩ := Token.scan_blanks (f.blank_margin indent) pos b _
      rw [hmargin]
      exact itemsRead_printed_statement h r pos₁ b₁
  | .descriptors name params body =>
      rw [Item.Legible] at h
      rw [Item.printed, List.append_assoc, List.append_assoc]
      obtain ⟨pos₁, b₁, hmargin⟩ := Token.scan_blanks (f.blank_margin indent) pos b _
      rw [hmargin]
      exact itemsRead_printed_descriptors h.1 h.2.1 h.2.2 indent r pos₁ b₁
  | .group name params body =>
      rw [Item.Legible] at h
      obtain ⟨hholds, hdepth, hhead, hbody⟩ := h
      obtain ⟨pos₁, b₁, hmargin⟩ := Token.scan_blanks (f.blank_margin indent) pos b
        (printedAtHead name params ++
          (f.block indent body.isEmpty (printedItems f (indent + 1) body) ++ r))
      have htail := f.tail_block indent body.isEmpty (printedItems f (indent + 1) body) r
      obtain ⟨t, us, pos₂, b₂, hscan, ht, hname, hjoin, hpasses⟩ := hhead.scan_printed htail pos₁ b₁
      obtain ⟨e, vs, pos', b', he, hblock, hread⟩ :=
        itemsRead_block (fun r => hbody.read (indent + 1) r) r pos₂ b₂
      refine ⟨pos', b', fun items rest hitems => ?_⟩
      rw [Item.printed, List.append_assoc, List.append_assoc, hmargin, hscan, hblock, ← hjoin]
      rw [← hname] at hholds ⊢
      exact .group ht hholds (collect_of_passes hpasses fun u hu => by cases hu; rw [he]; rfl)
        (Token.is_iff.2 he) hdepth hread hitems

theorem ItemsLegible.read {f : Format} {depth : Nat} {items : List Item}
    (h : ItemsLegible f depth items) (indent : Nat) (r : List Char) (pos : Position) (b : Bool) :
    ∃ pos' b', ∀ more rest, ItemsRead depth (scan pos' b' r) more rest →
      ItemsRead depth (scan pos b (printedItems f indent items ++ r)) (items ++ more) rest := by
  match items with
  | [] => exact ⟨pos, b, fun more rest hmore => by rw [printedItems]; exact hmore⟩
  | item :: items =>
      rw [ItemsLegible] at h
      obtain ⟨pos₁, b₁, hitem⟩ := h.1.read indent (printedItems f indent items ++ r) pos b
      obtain ⟨pos', b', hitems⟩ := h.2.read indent r pos₁ b₁
      refine ⟨pos', b', fun more rest hmore => ?_⟩
      rw [printedItems, List.append_assoc]
      exact hitem _ _ (hitems _ _ hmore)
end

/-- Legible entries are what is read from their print, if that has no comment in it. -/
theorem itemsRead_printedItems {f : Format} {items : List Item} (h : ItemsLegible f 0 items)
    (pos : Position) (b : Bool) : ItemsRead 0 (scan pos b (printedItems f 0 items)) items [] := by
  obtain ⟨pos', b', hread⟩ := h.read 0 [] pos b
  have := hread [] [] (by rw [Token.scan_nil]; exact .finish)
  rwa [List.append_nil, List.append_nil] at this

/-! ## No comment starts in the print -/

theorem Uncommented.cons {c : Char} {cs : List Char} (h : Uncommented cs) (hc : c ≠ '/') :
    Uncommented (c :: cs) := uncommented_cons.2 ⟨fun he => absurd he hc, h⟩

theorem Uncommented.blank {w cs : List Char} (h : Uncommented cs)
    (hw : ∀ c ∈ w, isBlank c = true) : Uncommented (w ++ cs) := by
  induction w with
  | nil => exact h
  | cons c w ih =>
      refine (ih fun d hd => hw d (List.mem_cons_of_mem _ hd)).cons fun hc => ?_
      have := hw c List.mem_cons_self
      rw [hc] at this
      cases this

/-- A text without comments in front of one that starts with no star. -/
theorem Uncommented.before {cs ds : List Char} (h : Uncommented cs) (h' : Uncommented ds)
    (hs : ds.head? ≠ some '*') : Uncommented (cs ++ ds) := h.append h' fun _ => hs

theorem head?_blank {w : List Char} (hw : ∀ c ∈ w, isBlank c = true) {c : Char} (hc : c ≠ '*')
    (r : List Char) : (w ++ c :: r).head? ≠ some '*' := by
  cases w with
  | nil => simpa using hc
  | cons d w =>
      intro h
      have hd := hw d List.mem_cons_self
      cases h
      cases hd

theorem Format.uncommented_block (f : Format) (depth : Nat) (isEmpty : Bool)
    {contents r : List Char}
    (h : ∀ r, Uncommented r → r.head? ≠ some '*' → Uncommented (contents ++ r))
    (hr : Uncommented r) : Uncommented (f.block depth isEmpty contents ++ r) := by
  have hclose : Uncommented ('\x7d' :: (f.newline ++ r)) :=
    (hr.blank f.blank_newline).cons (by decide)
  rw [block, List.append_assoc]
  refine Uncommented.blank (Uncommented.cons ?_ (by decide)) f.blank_space
  rw [List.append_assoc]
  cases isEmpty with
  | true => exact hclose
  | false =>
      have hcontents := h _ (hclose.blank (f.blank_margin depth))
        (head?_blank (f.blank_margin depth) (by decide) _)
      simpa using hcontents.blank f.blank_newline

theorem Format.head?_block (f : Format) (depth : Nat) (isEmpty : Bool) (contents r : List Char) :
    (f.block depth isEmpty contents ++ r).head? ≠ some '*' := by
  rw [block, List.append_assoc]
  exact head?_blank f.blank_space (by decide) _

theorem Declaration.Legible.uncommented_printed {d : Declaration} (h : d.Legible f) {r : List Char}
    (hr : Uncommented r) (hs : r.head? ≠ some '*') : Uncommented (d.printed f ++ r) := by
  have hmark : Uncommented (d.value.mark f ++ r) ∧ (d.value.mark f ++ r).head? ≠ some '*' := by
    unfold Value.mark
    split
    next =>
      have hword : Uncommented ("!important".toList ++ r) :=
        Uncommented.before (by unfold Uncommented; decide) hr hs
      rw [List.append_assoc]
      exact ⟨hword.blank f.blank_space, head?_blank (c := '!') f.blank_space (by decide) _⟩
    next => exact ⟨hr, hs⟩
  have hvalue := (h.value.1.before hmark.1 hmark.2).blank f.blank_space
  have hprinted : d.printed f ++ r = d.property.toList ++
      ':' :: (f.space ++ (d.value.text.toList ++ (d.value.mark f ++ r))) := by
    simp [Declaration.printed]
  rw [hprinted]
  exact h.uncommented.before (hvalue.cons (by decide)) (by simp)

theorem uncommented_printedDeclarations {ds : List Declaration} (h : ∀ d ∈ ds, d.Legible f)
    (depth : Nat) {r : List Char} (hr : Uncommented r) (hs : r.head? ≠ some '*') :
    Uncommented (printedDeclarations f depth ds ++ r) := by
  induction ds with
  | nil => exact hr
  | cons d ds ih =>
      have ih := ih fun d hd => h d (List.mem_cons_of_mem _ hd)
      have hrest : Uncommented (f.terminator ds.isEmpty ++ (printedDeclarations f depth ds ++ r)) ∧
          (f.terminator ds.isEmpty ++ (printedDeclarations f depth ds ++ r)).head? ≠ some '*' := by
        cases f with
        | pretty =>
            have hline := ih.cons (c := '\n') (by decide)
            exact ⟨hline.cons (c := ';') (by decide), by simp [Format.terminator]⟩
        | compact =>
            cases ds with
            | nil => exact ⟨hr, hs⟩
            | cons e ds => exact ⟨ih.cons (c := ';') (by decide), by simp [Format.terminator]⟩
      have hd := (h d List.mem_cons_self).uncommented_printed hrest.1 hrest.2
      have hprinted : printedDeclarations f depth (d :: ds) ++ r = f.margin depth ++
          (d.printed f ++ (f.terminator ds.isEmpty ++ (printedDeclarations f depth ds ++ r))) := by
        simp [printedDeclarations]
      rw [hprinted]
      exact hd.blank (f.blank_margin depth)

theorem HeadLegible.uncommented_printed {spaced : Bool} {name params : String}
    (h : HeadLegible spaced name params) {r : List Char} (hr : Uncommented r)
    (hs : r.head? ≠ some '*') : Uncommented (printedAtHead name params ++ r) := by
  have hparams := h.params.1.before hr hs
  unfold printedAtHead
  split
  next =>
    rw [List.append_nil]
    exact (h.uncommented.before hr hs).cons (c := '@') (by decide)
  next =>
    rw [List.append_assoc]
    have hname := h.uncommented.before (hparams.cons (c := ' ') (by decide)) (by simp)
    exact hname.cons (c := '@') (by decide)

mutual
theorem Item.Legible.uncommented_printed {depth : Nat} {item : Item} (h : item.Legible f depth)
    (indent : Nat) {r : List Char} (hr : Uncommented r) :
    Uncommented (item.printed f indent ++ r) := by
  match item with
  | .rule selector body =>
      rw [Item.Legible] at h
      have hblock := f.uncommented_block indent body.isEmpty
        (fun r => uncommented_printedDeclarations h.2 (indent + 1)) hr
      rw [Item.printed, List.append_assoc, List.append_assoc]
      exact (h.1.1.before hblock (f.head?_block _ _ _ _)).blank (f.blank_margin indent)
  | .statement name params =>
      rw [Item.Legible] at h
      have hend : Uncommented (';' :: (f.newline ++ r)) :=
        (hr.blank f.blank_newline).cons (by decide)
      rw [Item.printed, List.append_assoc, List.append_assoc]
      exact (h.uncommented_printed hend (by simp)).blank (f.blank_margin indent)
  | .descriptors name params body =>
      rw [Item.Legible] at h
      have hblock := f.uncommented_block indent body.isEmpty
        (fun r => uncommented_printedDeclarations h.2.2 (indent + 1)) hr
      rw [Item.printed, List.append_assoc, List.append_assoc]
      exact (h.2.1.uncommented_printed hblock (f.head?_block _ _ _ _)).blank (f.blank_margin indent)
  | .group name params body =>
      rw [Item.Legible] at h
      have hblock := f.uncommented_block indent body.isEmpty
        (fun r hr _ => h.2.2.2.uncommented_printed (indent + 1) hr) hr
      rw [Item.printed, List.append_assoc, List.append_assoc]
      exact (h.2.2.1.uncommented_printed hblock (f.head?_block _ _ _ _)).blank
        (f.blank_margin indent)

theorem ItemsLegible.uncommented_printed {depth : Nat} {items : List Item}
    (h : ItemsLegible f depth items) (indent : Nat) {r : List Char} (hr : Uncommented r) :
    Uncommented (printedItems f indent items ++ r) := by
  match items with
  | [] =>
      rw [printedItems]
      exact hr
  | item :: items =>
      rw [ItemsLegible] at h
      rw [printedItems, List.append_assoc]
      exact h.1.uncommented_printed indent (h.2.uncommented_printed indent hr)
end

/-- The stylesheet of legible entries is what is read from its print. -/
theorem read_print_of_legible {f : Format} {items : List Item} (h : ItemsLegible f 0 items) :
    Sheet.read ((Sheet.ofItems items).print f) = .ok (Sheet.ofItems items) := by
  have hcomment := h.uncommented_printed 0 (r := []) .nil
  rw [List.append_nil] at hcomment
  have hread : readItems ((Sheet.ofItems items).print f) = .ok items := by
    rw [readItems_eq_ok_iff, Token.ofText, toList_print_ofItems,
      blankComments_of_uncommented hcomment]
    exact itemsRead_printedItems h _ _
  rw [Sheet.read, hread]
  rfl

end TieredStyle.Css
