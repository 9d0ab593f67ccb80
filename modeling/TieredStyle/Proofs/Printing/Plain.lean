import TieredStyle.Proofs.Grammar.Rest
import TieredStyle.Proofs.Lexing.Scanned
import TieredStyle.Proofs.Printing.ReadBack
import TieredStyle.Proofs.Tree.Listing

/-!
# Entries of plain tokens are legible

The texts that are read from plain tokens are spelled by the tokens themselves with fewer blanks, so each
of them is cut again as it was cut first.
-/
namespace TieredStyle.Css
open TieredStyle.Text

/-! ## Sound tokens -/

/-- Plain tokens as a scan of a text without comments gives them, where none stands on its own between a
slash and a star. -/
structure Sound (ts : List Token) : Prop where
  settled : Token.Settled ts []
  plain : ∀ t ∈ ts, t.isPlain = true
  apart : ∀ t ∈ ts, t.Apart
  parted : Token.Parted ts

theorem sound_ofText {s : String} (hplain : ∀ t ∈ Token.ofText s, t.isPlain = true)
    (hparted : Token.Parted (Token.ofText s)) : Sound (Token.ofText s) :=
  ⟨Token.settled_scan hplain, hplain, Token.apart_scan (uncommented_blankComments _) hplain, hparted⟩

namespace Sound

variable {t : Token} {ts us : List Token}

theorem right (h : Sound (ts ++ us)) : Sound us where
  settled := (Token.settled_append.1 h.settled).2
  plain := fun t ht => h.plain t (List.mem_append_right ts ht)
  apart := fun t ht => h.apart t (List.mem_append_right ts ht)
  parted := by
    have hp := h.parted
    rw [Token.Parted, List.map_append] at hp
    exact (List.isChain_append.1 hp).2.1

theorem tail (h : Sound (t :: ts)) : Sound ts := @right [t] ts h

theorem stops (h : Sound (t :: ts)) : t.Stops (Token.spelling ts) := by
  have := h.settled.1
  rwa [List.append_nil] at this

end Sound

theorem endsValue_of_endsHead {k : Kind} (h : endsHead k = true) : endsValue k = true := by
  simp [endsValue, h]

theorem exists_mark_of_endsHead {k : Kind} (h : endsHead k = true) :
    ∃ m, k = .mark m ∧ isBreak m.char = true := by
  unfold endsHead at h
  split at h
  · exact ⟨_, rfl, by decide⟩
  · exact ⟨_, rfl, by decide⟩
  · exact ⟨_, rfl, by decide⟩
  · cases h

/-- What stands before a stop ends there. -/
theorem ends_spelling {us : List Token} (hs : Token.Settled us [])
    (he : ∀ e ∈ us.head?, endsValue e.kind = true) : Ends (Token.spelling us) := by
  cases us with
  | nil => exact ends_nil
  | cons e us =>
      have hk := he e rfl
      rw [Token.spelling, List.append_assoc]
      split
      · exact ends_cons.2 (by decide)
      · rw [List.nil_append]
        simp only [endsValue, Bool.or_eq_true, decide_eq_true_eq] at hk
        rcases hk with hk | hk
        · obtain ⟨cs, ht, _⟩ := hs.1.text_of_important hk
          rw [ht]
          exact ends_cons.2 (by decide)
        · obtain ⟨m, hm, hb⟩ := exists_mark_of_endsHead hk
          rw [hs.1.text_of_mark hm]
          exact ends_cons.2 hb

theorem Spacing.toLexeme_tighten (s : Spacing) (k : Kind) (ts : List Token) :
    (s.tighten k ts).map (·.toLexeme) = ts.map (·.toLexeme) := by
  induction ts generalizing k with
  | nil => rfl
  | cons t ts ih => simp only [tighten, List.map_cons, ih]

theorem Spacing.toLexeme_tightened (s : Spacing) (ts : List Token) :
    (s.tightened ts).map (·.toLexeme) = ts.map (·.toLexeme) := by
  cases ts with
  | nil => rfl
  | cons t ts => simp only [tightened, List.map_cons, toLexeme_tighten]

theorem Token.toLexeme_bare (ts : List Token) : (bare ts).map (·.toLexeme) = ts.map (·.toLexeme) := by
  cases ts with
  | nil => rfl
  | cons t ts => simp [bare, unplaced]

/-- The normalized text of sound tokens in front of a stop is cut into them again. -/
theorem Sound.cut {ts us : List Token} (h : Sound (ts ++ us))
    (he : ∀ e ∈ us.head?, endsValue e.kind = true) (s : Spacing) (spaced : Bool)
    {P : List Kind → Prop} (hP : P (ts.map (·.kind))) : Cut s P spaced (s.join ts) := by
  obtain ⟨hts, hus⟩ := Token.settled_append.1 h.settled
  rw [List.append_nil] at hts
  have hplain : ∀ t ∈ ts, t.isPlain = true := fun t ht => h.plain t (List.mem_append_left us ht)
  have hlexemes : (Token.bare (s.tightened ts)).map (·.toLexeme) = ts.map (·.toLexeme) := by
    rw [Token.toLexeme_bare, s.toLexeme_tightened]
  have hmem : ∀ t ∈ Token.bare (s.tightened ts), ∃ u ∈ ts, u.toLexeme = t.toLexeme := by
    intro t ht
    have hl := List.mem_map_of_mem (f := (·.toLexeme)) ht
    rw [hlexemes] at hl
    exact List.mem_map.1 hl
  refine ⟨?_, s.tightened ts, fun r hr => ?_, s.tightened_tightened ts, s.toList_join ts, ?_⟩
  · rw [s.toList_join]
    refine Token.uncommented_spelling (fun t ht => ?_) ?_
    · obtain ⟨u, hu, hl⟩ := hmem t ht
      rw [← hl]
      exact h.apart u (List.mem_append_left us hu)
    · have hkinds := congrArg (List.map (·.kind)) hlexemes
      rw [List.map_map, List.map_map] at hkinds
      have hp := h.parted
      rw [Token.Parted, List.map_append] at hp
      rw [Token.Parted, show (fun t : Token => t.kind) = Lexeme.kind ∘ Token.toLexeme from rfl,
        hkinds]
      exact (List.isChain_append.1 hp).1
  · exact Spacing.settled_tightened hts hplain (ends_spelling hus he) hr.ends
  · rw [s.kind_tightened]
    exact hP

/-! ## Legible entries -/

theorem hyphenNameLength_append {cs r r' : List Char} (h : hyphenNameLength (cs ++ r) = cs.length)
    (hne : cs ≠ []) (hr' : Ends r') : hyphenNameLength (cs ++ r') = cs.length := by
  have hname : ∀ ds : List Char, ds ≠ [] → nameLength (ds ++ r) = ds.length →
      nameLength (ds ++ r') = ds.length := by
    intro ds hds hlen
    cases ds with
    | nil => exact absurd rfl hds
    | cons d ds =>
        simp only [List.cons_append, nameLength, List.length_cons] at hlen ⊢
        split at hlen
        next hd =>
          rw [if_pos hd]
          have hall := all_of_runLength (Nat.succ.inj hlen)
          rw [runLength_append_of_all hall fun c hc =>
            isNameChar_of_isBarrier (isBarrier_of_isBreak (hr' c hc))]
        next => cases hlen
  cases cs with
  | nil => exact absurd rfl hne
  | cons c cs =>
      by_cases hc : c = '-'
      · subst hc
        simp only [List.cons_append, hyphenNameLength, List.length_cons] at h ⊢
        split at h
        · cases h
        next hpos =>
          have hlen := Nat.succ.inj h
          have hcs : cs ≠ [] := by
            intro he
            rw [he] at hlen hpos
            exact hpos hlen
          have hlen' := hname cs hcs hlen
          rw [hlen', if_neg (by rw [List.length_eq_zero_iff]; exact hcs)]
      · have hname' : ∀ z, hyphenNameLength (c :: z) = nameLength (c :: z) := by
          intro z
          rw [hyphenNameLength.eq_def]
          split
          next heq => exact absurd (List.cons.inj heq).1 hc
          next => rfl
        rw [List.cons_append, hname'] at h ⊢
        exact hname (c :: cs) hne h

/-- A keyword ends before anything that ends a name. -/
theorem Lexeme.Stops.keyword {l : Lexeme} {r r' : List Char} (h : l.Stops r)
    (hk : l.kind = .atKeyword) (hr' : Ends r') : l.Stops r' := by
  obtain ⟨cs, ht, hm⟩ := h.text_of_keyword hk
  have hmunch : ∀ z, munch '@' z =
      if hyphenNameLength z = 0 then (.delim, 0) else (.atKeyword, hyphenNameLength z) := by
    intro z
    rfl
  refine ⟨'@', cs, ht, by decide, ?_⟩
  rw [hmunch] at hm
  rw [hk, hmunch]
  by_cases hpos : hyphenNameLength (cs ++ r) = 0
  · rw [if_pos hpos] at hm
    cases hm
  · rw [if_neg hpos] at hm
    have hlen := congrArg Prod.snd hm
    have hne : cs ≠ [] := fun he => by
      rw [he] at hlen hpos
      exact hpos hlen
    have hlen' := hyphenNameLength_append hlen hne hr'
    rw [hlen', if_neg (by rw [List.length_eq_zero_iff]; exact hne)]

variable {f : Format}

theorem DeclarationsRead.legible {ts rest : List Token} {ds : List Declaration}
    (h : DeclarationsRead ts ds rest) (hs : Sound ts) : ∀ d ∈ ds, d.Legible f := by
  induction h with
  | close =>
      intro d hd
      cases hd
  | skip _ _ ih => exact ih hs.tail
  | @declare t u e ts us rest value ds ht hu hv _ _ ih =>
      obtain ⟨taken, rest', rfl, htext, hends, hpasses, hrest⟩ := takeValue_eq_cons hv
      have hvalue := hs.tail.tail.cut hends .value (f.isSpaced && value.important) hpasses
      rw [← htext] at hvalue
      have hproperty : ∀ r, t.Stops (':' :: r) := by
        intro r
        refine hs.stops.alike_of_isPlain (hs.plain t List.mem_cons_self)
          (.ends ?_ (ends_cons.2 (by decide)))
        rw [Token.spelling, List.append_assoc]
        split
        · exact ends_cons.2 (by decide)
        · rw [List.nil_append, hs.tail.stops.text_of_mark (Token.is_iff.1 hu)]
          exact ends_cons.2 (by decide)
      rw [show t.toLexeme = ⟨.ident, t.text⟩ by rw [← ht]] at hproperty
      intro d hd
      rcases List.mem_cons.1 hd with rfl | hd
      · exact ⟨hproperty, (hs.apart t List.mem_cons_self).uncommented, hvalue⟩
      · rcases hrest with ⟨rfl, _⟩ | ⟨i, rfl, _⟩
        · exact ih hs.tail.tail.right d hd
        · exact ih hs.tail.tail.right.tail d hd

/-- The head of an at-rule: its keyword and the tokens up to a stop. -/
theorem Sound.headLegible {t : Token} {head us : List Token} (h : Sound (t :: (head ++ us)))
    (ht : t.kind = .atKeyword) (he : ∀ e ∈ us.head?, endsHead e.kind = true)
    (hp : Passes endsHead 0 (head.map (·.kind))) (spaced : Bool) :
    HeadLegible spaced t.ruleName (Spacing.params.join head) := by
  obtain ⟨cs, hcs, _⟩ := h.stops.text_of_keyword ht
  have hname : '@' :: t.ruleName.toList = t.text.toList := by
    rw [Token.ruleName, hcs]
    simp
  have hu := (h.apart t List.mem_cons_self).uncommented
  rw [← hname] at hu
  refine ⟨fun r hr => ?_, hu.tail, ?_⟩
  · rw [hname, String.ofList_toList, ← ht]
    exact h.stops.keyword ht hr
  · exact h.tail.cut (fun e hu => endsValue_of_endsHead (he e hu)) .params spaced hp

theorem ItemsRead.legible {depth : Nat} {ts rest : List Token} {items : List Item}
    (h : ItemsRead depth ts items rest) (hs : Sound ts)
    (hd : depthAfterAll 0 (ts.map (·.kind)) = 0) : ItemsLegible f depth items := by
  induction h with
  | finish => trivial
  | close => trivial
  | skip ht _ ih => exact ih hs.tail (by rwa [depthAfterAll_cons (depthAfter_mark ht rfl)] at hd)
  | @rule depth t e ts head us vs rest ds items hk hend hc he hds _ ih =>
      obtain ⟨hts, hstop, hpasses⟩ := collect_eq_cons hc
      rw [depthAfterAll_of_collect hc, depthAfterAll_cons (depthAfter_mark he rfl), hds.depth] at hd
      rw [hts] at hs
      have hus := hs.right.tail
      obtain ⟨front, rfl⟩ := hds.suffix
      refine ⟨⟨?_, hds.legible hus⟩, ih hus.right hd⟩
      refine hs.cut (fun u hu => ?_) .selector f.isSpaced ⟨hpasses, ?_⟩
      · cases hu
        exact endsValue_of_endsHead hstop
      · obtain ⟨_, rfl, _⟩ := exists_cons_of_collect hend hc
        exact ⟨_, _, rfl, hk⟩
  | @statement depth t ts head us rest items ht hc he _ ih =>
      rw [depthAfterAll_cons (by rw [ht]; rfl)] at hd
      have hts := collect_append endsHead 0 ts
      have hstop := @stop_of_collect endsHead 0 ts
      have hpasses := @passes_collect endsHead 0 ts fun _ => hd
      rw [hc] at hts hstop hpasses
      have hus : depthAfterAll 0 (us.map (·.kind)) = 0 := by
        rwa [← hts, List.map_append, depthAfterAll_append, hpasses.depthAfterAll_eq] at hd
      rw [← hts] at hs
      exact ⟨hs.headLegible ht hstop hpasses false, ih hs.tail.right hus⟩
  | @descriptors depth t e ts head us vs rest ds items ht hn hc he hds _ ih =>
      obtain ⟨hts, hstop, hpasses⟩ := collect_eq_cons hc
      rw [depthAfterAll_cons (by rw [ht]; rfl), depthAfterAll_of_collect hc,
        depthAfterAll_cons (depthAfter_mark he rfl), hds.depth] at hd
      rw [hts] at hs
      have hus := hs.tail.right.tail
      obtain ⟨front, rfl⟩ := hds.suffix
      have hhead := hs.headLegible ht (fun u hu => by cases hu; exact hstop) hpasses f.isSpaced
      exact ⟨⟨hn, hhead, hds.legible hus⟩, ih hus.right hd⟩
  | @group depth t e ts head us vs rest body items ht hn hc he hdepth hbody _ ihbody ih =>
      obtain ⟨hts, hstop, hpasses⟩ := collect_eq_cons hc
      rw [depthAfterAll_cons (by rw [ht]; rfl), depthAfterAll_of_collect hc,
        depthAfterAll_cons (depthAfter_mark he rfl)] at hd
      rw [hts] at hs
      have hus := hs.tail.right.tail
      have hhead := hs.headLegible ht (fun u hu => by cases hu; exact hstop) hpasses f.isSpaced
      have hvs := hd
      rw [hbody.depth (Nat.succ_ne_zero _)] at hvs
      have hrest := hus
      obtain ⟨front, rfl⟩ := hbody.suffix
      exact ⟨⟨hn, hdepth, hhead, ihbody hus hd⟩, ih hrest.right hvs⟩

/-! ## Printing again -/

/-- A stylesheet that is read from plain tokens with all brackets closed, where no slash stands before a
star, is read back from its print in either format. -/
theorem read_print_of_plain {s : String} {sheet : Sheet} (h : Sheet.read s = .ok sheet)
    (hliteral : ∀ t ∈ Token.ofText s, t.isOpenLiteral = false)
    (hbang : ∀ t ∈ Token.ofText s, t.isLoneBang = false)
    (hparted : (Token.ofText s).IsChain fun t u => ¬(t.is .slash = true ∧ u.is .star = true))
    (hclosed : depthAfterAll 0 ((Token.ofText s).map (·.kind)) = 0) (f : Format) :
    ∃ again listing, Sheet.read (sheet.print f) = .ok again ∧ sheet.listing = .ok listing ∧
      again.listing = .ok listing := by
  obtain ⟨items, hitems, hsheet⟩ := bind_eq_ok.1 h
  cases hsheet
  have hplain : ∀ t ∈ Token.ofText s, t.isPlain = true := by
    intro t ht
    simp [Lexeme.isPlain, hliteral t ht, hbang t ht]
  have hparted' : Token.Parted (Token.ofText s) := by
    rw [Token.Parted, List.isChain_map]
    refine hparted.imp fun t u hne hkinds => hne ?_
    rw [Token.is_iff, Token.is_iff]
    exact hkinds
  have hlegible := (readItems_eq_ok_iff.1 hitems).legible (f := f) (sound_ofText hplain hparted')
    hclosed
  have hlisting := Sheet.listing_eq_lines (whole_ofItems items)
  exact ⟨_, _, read_print_of_legible hlegible, hlisting, hlisting⟩

/-- A stylesheet with a comment, blanks of all sorts, an at-rule inside which a rule stands, and one that
the text breaks off. -/
theorem read_print_media : ∃ sheet again listing,
    Sheet.read "@import 'x' ;@media (max-width : 9px)\x7b a>b ,c /*d*/ e\x7bf:g( 1 / 2 ) ! IMPORTANT\x7d\x7d@h" =
      .ok sheet ∧ Sheet.read (sheet.print .pretty) = .ok again ∧ sheet.listing = .ok listing ∧
      again.listing = .ok listing := by
  have h : Sheet.read
      "@import 'x' ;@media (max-width : 9px)\x7b a>b ,c /*d*/ e\x7bf:g( 1 / 2 ) ! IMPORTANT\x7d\x7d@h" =
        .ok (.ofItems [.statement "import" "'x'", .group "media" "(max-width:9px)"
          [.rule "a>b,c e" [⟨"f", ⟨"g(1/2)", true⟩⟩]], .statement "h" ""]) := by
    decide +kernel
  obtain ⟨again, listing, hagain⟩ := read_print_of_plain h (by decide +kernel) (by decide +kernel)
    (by decide +kernel) (by decide +kernel) .pretty
  exact ⟨_, again, listing, h, hagain⟩

end TieredStyle.Css
