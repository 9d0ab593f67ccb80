import TieredStyle.Proofs.Style.Merged
import TieredStyle.Proofs.Style.RoundTrip
import TieredStyle.Proofs.Style.Survival

/-!
# Projecting a decoded style

The texts in a stylesheet that is read back from its print read as they are, and so do those of the style
to which it is decoded. That style is written as the stylesheet again, unless a rule has a declaration with
a mark, which decoding drops, or two of the same property, of which decoding keeps one.
-/
namespace TieredStyle
open TieredStyle.Css

theorem OrderedMap.forall₂_entries {α β : Type} {R : α → β → Prop} {m : OrderedMap α} {n : OrderedMap β}
    (hkeys : m.keys = n.keys) (h : ∀ k x y, m.get? k = some x → n.get? k = some y → R x y) :
    List.Forall₂ (fun e e' => e.1 = e'.1 ∧ R e.2 e'.2) m.entries n.entries := by
  have hsame : List.Forall₂ (fun e e' => e.1 = e'.1) m.entries n.entries := by
    rw [← List.forall₂_map_right_iff (R := fun (e : String × α) k => e.1 = k),
      ← List.forall₂_map_left_iff (R := (· = ·)), List.forall₂_eq_eq_eq]
    exact hkeys
  have hleft := (List.forall₂_and_left _ _).2 ⟨fun e he => get?_eq_some_iff.2 he, hsame⟩
  have hright := (List.forall₂_and_left _ _).2 ⟨fun e he => get?_eq_some_iff.2 he, hleft.flip⟩
  refine hright.flip.imp ?_
  rintro e e' ⟨hy, hx, hk⟩
  rw [← hk] at hy
  exact ⟨hk, h e.1 e.2 e'.2 hx hy⟩

namespace Style

/-! ## Styles that are written alike -/

/-- Other properties that are read as the same declarations. -/
def Rereads (properties properties' : Properties) : Prop :=
  properties.isEmpty = properties'.isEmpty ∧
    ∀ ds, ReadAs properties.entries ds → ReadAs properties'.entries ds

theorem rulesOf_of_rereads {σ : String} {es es' : List (String × Properties)} {rules : List Item}
    (h : List.Forall₂ (fun e e' => e.1 = e'.1 ∧ Rereads e.2 e'.2) es es')
    (hrules : RulesOf σ (es.filter (!·.2.isEmpty)) rules) :
    RulesOf σ (es'.filter (!·.2.isEmpty)) rules := by
  induction h generalizing rules with
  | nil => exact hrules
  | @cons e e' es es' he _ ih =>
      obtain ⟨hkey, hempty, hreads⟩ := he
      rw [List.filter_cons, hempty] at hrules
      rw [List.filter_cons]
      split at hrules
      next hne =>
        rw [if_pos hne]
        cases hrules with
        | cons hrule hrules =>
            obtain ⟨selector, ds, hitem, hselector, hds⟩ := ruleOf_eq_ok.1 hrule
            rw [hkey] at hselector
            exact .cons (ruleOf_eq_ok.2 ⟨selector, ds, hitem, hselector, hreads ds hds⟩) (ih hrules)
      next hne =>
        rw [if_neg hne]
        exact ih hrules

/-- Properties at the same addresses that are read as the same declarations make the same rules. -/
theorem toItems_of_rereads {s s' : Style} {selector : String} {items : List Item}
    (hshape : shape s.layers = shape s'.layers)
    (h : ∀ bp ps properties properties', at? s.layers bp ps = some properties →
      at? s'.layers bp ps = some properties' → Rereads properties properties')
    (hitems : s.toItems selector = .ok items) : s'.toItems selector = .ok items := by
  obtain ⟨σ, tiers, hσ, htiers, rfl⟩ := toItems_eq_ok.1 hitems
  refine toItems_eq_ok.2 ⟨σ, tiers, hσ, ?_, rfl⟩
  have hkeys : s.layers.keys = s'.layers.keys := by
    rw [keys_eq_of_shape hshape, keys_eq_of_shape rfl]
  have hstates := OrderedMap.forall₂_entries hkeys (R := fun states states' =>
      List.Forall₂ (fun e e' => e.1 = e'.1 ∧ Rereads e.2 e'.2) states.entries states'.entries)
    fun bp states states' hs hs' => OrderedMap.forall₂_entries (keys_of_shape hshape hs hs')
      fun ps properties properties' hp hp' => h bp ps properties properties'
        (Option.bind_eq_some_iff.2 ⟨states, hs, hp⟩) (Option.bind_eq_some_iff.2 ⟨states', hs', hp'⟩)
  clear hitems
  generalize s.layers.entries = es, s'.layers.entries = es' at htiers hstates
  induction htiers generalizing es' with
  | nil =>
      cases hstates
      exact .nil
  | @cons e tier es tiers htier _ ih =>
      cases hstates with
      | @cons _ e' _ es' he hes =>
          obtain ⟨rules, hrules, htier⟩ := itemsOf_eq_ok.1 htier
          rw [he.1] at htier
          exact .cons (itemsOf_eq_ok.2 ⟨rules, rulesOf_of_rereads he.2 hrules, htier⟩) (ih es' hes)

/-! ## Legible rules -/

end Style

/-- The texts of a rule are legible. -/
def Css.Ruled.Legible (f : Format) (r : Ruled) : Prop :=
  Cut .selector Selects f.isSpaced r.selector ∧ ∀ d ∈ r.body, d.Legible f

/-- The address at which a rule is decoded. -/
def Css.Ruled.address (r : Ruled) : String × String :=
  ((Style.breakpointUnder r.media).key, (PseudoState.ofSelector r.selector).key)

namespace Style

variable {f : Format}

theorem itemsLegible_iff_ruled {depth : Nat} {items : List Item}
    (h : ∀ item ∈ items, ∀ m next, item.Legible f depth ↔ ∀ r ∈ item.ruled m next, r.Legible f)
    (m : Option String) (next : Nat) :
    ItemsLegible f depth items ↔ ∀ r ∈ itemRuled m next items, r.Legible f := by
  induction items generalizing m next with
  | nil =>
      rw [itemRuled]
      exact iff_of_true trivial fun r hr => by cases hr
  | cons item items ih =>
      rw [ItemsLegible, itemRuled, List.forall_mem_append, h item List.mem_cons_self,
        ih fun item hmem => h item (List.mem_cons_of_mem _ hmem)]

theorem rule_legible_iff (depth : Nat) (selector : String) (body : List Declaration) (m : Option String)
    (next : Nat) : (Item.rule selector body).Legible f depth ↔
      ∀ r ∈ (Item.rule selector body).ruled m next, r.Legible f := by
  rw [Item.Legible, Item.ruled, List.forall_mem_singleton, Ruled.Legible]

/-- The entries of a projected stylesheet are legible if its rules are. -/
theorem legible_toItems_iff {s : Style} {selector : String} {items : List Item}
    (h : s.toItems selector = .ok items) (m : Option String) (next : Nat) :
    ItemsLegible f 0 items ↔ ∀ r ∈ itemRuled m next items, r.Legible f := by
  refine itemsLegible_iff_ruled (fun item hmem m next => ?_) m next
  rcases rule_or_media h item hmem with ⟨σ, body, rfl⟩ | ⟨b, params, rules, hb, rfl, hrules⟩
  · exact rule_legible_iff 0 σ body m next
  · have hbody : ItemsLegible f 1 rules ↔ ∀ r ∈ itemRuled (some params) (next + 2) rules, r.Legible f := by
      refine itemsLegible_iff_ruled (fun rule hrule m next => ?_) _ _
      obtain ⟨σ, body, rfl⟩ := hrules rule hrule
      exact rule_legible_iff 1 σ body m next
    rw [Item.Legible, Item.ruled, if_pos isMedia_media, ← hbody]
    exact ⟨fun h => h.2.2.2, fun h => ⟨holdsItems_media, by decide, b.headLegible_params hb f, h⟩⟩

/-! ## Decoded layers -/

/-- What rules are decoded to. -/
def decodedLayers (rs : List Ruled) : Layers := rs.foldl overlayRule Layout.standard.layers

theorem shape_decodedLayers (rs : List Ruled) : shape (decodedLayers rs) =
    Breakpoint.all.map fun b => (b.key, PseudoState.all.map (·.key)) := by
  refine List.foldlRecOn (motive := fun layers => shape layers = _) _ _ (shape_merge_standard []) ?_
  intro layers h r _
  rw [overlayRule, shape_overlayAt, h]

section

variable {rs : List Ruled} (hnodup : (rs.map Ruled.address).Nodup)

include hnodup

theorem at?_decodedLayers {r : Ruled} (hr : r ∈ rs) :
    at? (decodedLayers rs) r.address.1 r.address.2 =
      some ((∅ : Properties).insertMany (r.body.map fun d => (d.property, d.value.text))) := by
  have hat : at? (decodedLayers rs) r.address.1 r.address.2 =
      (at? Layout.standard.layers r.address.1 r.address.2).map
        (·.insertMany (r.body.map fun d => (d.property, d.value.text))) :=
    at?_foldl_of_mem hnodup hr
  rw [hat, Ruled.address, at?_standard, Option.map_some]

/-- Each decoded text is one of the rule at its address. -/
theorem exists_of_decodedLayers {bp ps : String} {properties : Properties}
    (hat : at? (decodedLayers rs) bp ps = some properties) (hne : properties.isEmpty = false) :
    ∃ r ∈ rs, r.address = (bp, ps) ∧
      ∀ e ∈ properties.entries, ∃ d ∈ r.body, (d.property, d.value.text) = e := by
  by_cases hmem : (bp, ps) ∈ rs.map Ruled.address
  · obtain ⟨r, hr, haddress⟩ := List.mem_map.1 hmem
    have hdecoded := at?_decodedLayers hnodup hr
    rw [haddress] at hdecoded
    cases hat.symm.trans hdecoded
    refine ⟨r, hr, haddress, fun e he => ?_⟩
    rcases OrderedMap.mem_of_mem_insertMany he with he | he
    · cases he
    · exact List.mem_map.1 he
  · obtain ⟨⟨b, rfl⟩, p, rfl⟩ := exists_keys_of_shape (shape_decodedLayers rs) hat
    have hstandard : at? (decodedLayers rs) b.key p.key = at? Layout.standard.layers b.key p.key :=
      at?_foldl_of_notMem hmem
    rw [hat, at?_standard] at hstandard
    cases hstandard
    cases hne

end

/-! ## Projecting what is decoded -/

/-- No declaration is marked, and none overrides another. -/
structure Bare (ds : List Declaration) : Prop where
  unmarked : ∀ d ∈ ds, d.value.important = false
  nodup : (ds.map (·.property)).Nodup

theorem readAs_of_bare {ds : List Declaration} {f : Format} (hds : ∀ d ∈ ds, d.Legible f)
    (hbare : Bare ds) : ReadAs (ds.map fun d => (d.property, d.value.text)) ds := by
  rw [ReadAs, List.forall₂_map_left_iff, List.forall₂_same]
  intro d hd
  obtain ⟨hproperty, hvalue⟩ := (hds d hd).read
  rw [Declaration.read_eq_ok]
  refine ⟨hproperty, hvalue.trans ?_⟩
  rw [← hbare.unmarked d hd]

theorem entries_of_bare {ds : List Declaration} (h : Bare ds) :
    ((∅ : Properties).insertMany (ds.map fun d => (d.property, d.value.text))).entries =
      ds.map fun d => (d.property, d.value.text) := by
  refine OrderedMap.entries_insertMany (m := ∅) ?_
  rw [List.map_append, List.map_map]
  exact h.nodup

/-- The properties are read as bare declarations. -/
def Lossless (properties : Properties) : Prop := ∃ ds, ReadAs properties.entries ds ∧ Bare ds

section

variable {s decoded : Style} {selector : String} {items : List Item}
  (hshape : shape s.layers = Breakpoint.all.map fun b => (b.key, PseudoState.all.map (·.key)))
  (hselector : readSelector selector = .ok selector)
  (hnone : ∀ p : PseudoState, p ≠ .base → ¬ ':' :: p.key.toList <:+: selector.toList)
  (hitems : s.toItems selector = .ok items)
  (hlegible : ItemsLegible .compact 0 items)
  (hdecoded : decoded.layers = decodedLayers (itemRuled none 1 items))

include hshape hselector hnone hitems

theorem writes_at_address : List.Forall₂ (fun e r => e.Writes selector r ∧ r.address = e.address)
    s.entries (itemRuled none 1 items) := by
  obtain ⟨σ, hσ, hwrites⟩ := writes_toItems hitems
  cases hselector.symm.trans hσ
  have hstandard : ∀ e ∈ s.entries, (∃ b : Breakpoint, b.key = e.breakpoint) ∧
      ∃ p : PseudoState, p.key = e.state :=
    fun e he => exists_keys_of_shape hshape (mem_entries.1 he).1
  refine ((List.forall₂_and_left _ _).2 ⟨hstandard, hwrites⟩).imp ?_
  rintro e r ⟨⟨hb, hp⟩, hwrites⟩
  obtain ⟨hbreakpoint, hstate⟩ := hwrites.decodedAt hb hp hselector hnone
  exact ⟨hwrites, Prod.ext hbreakpoint hstate⟩

theorem nodup_addresses : ((itemRuled none 1 items).map Ruled.address).Nodup := by
  have haddress : s.entries.map Entry.address = (itemRuled none 1 items).map Ruled.address := by
    rw [← List.forall₂_eq_eq_eq, List.forall₂_map_left_iff, List.forall₂_map_right_iff]
    exact (writes_at_address hshape hselector hnone hitems).imp fun e r h => h.2.symm
  rw [← haddress]
  exact s.nodup_entries

include hdecoded

/-- Nothing is decoded at an address for which nothing was written. -/
theorem isEmpty_of_decoded {bp ps : String} {properties properties' : Properties}
    (hat : at? s.layers bp ps = some properties) (hat' : at? decoded.layers bp ps = some properties')
    (hempty : properties.isEmpty = true) : properties'.isEmpty = true := by
  by_contra hne
  rw [Bool.not_eq_true] at hne
  rw [hdecoded] at hat'
  have hnodup := nodup_addresses hshape hselector hnone hitems
  obtain ⟨r, hr, haddress, _⟩ := exists_of_decodedLayers hnodup hat' hne
  obtain ⟨e, he, _, heq⟩ := exists_of_mem_right (writes_at_address hshape hselector hnone hitems) hr
  obtain ⟨hb, hp⟩ := Prod.mk.inj (heq.symm.trans haddress)
  obtain ⟨hwritten, hwrittenNe⟩ := mem_entries.1 he
  rw [hb, hp, hat] at hwritten
  cases hwritten
  rw [hempty] at hwrittenNe
  cases hwrittenNe

include hlegible

/-- The decoded style is written with legible texts, bare declarations and the selectors that were there. -/
theorem ruled_of_decoded {items' : List Item} (hitems' : decoded.toItems selector = .ok items')
    {r' : Ruled} (hr' : r' ∈ itemRuled none 1 items') : r'.Legible .compact ∧ Bare r'.body := by
  have hnodup := nodup_addresses hshape hselector hnone hitems
  obtain ⟨σ, hσ, hwrites'⟩ := writes_toItems hitems'
  cases hselector.symm.trans hσ
  obtain ⟨e', he', hwrites'⟩ := exists_of_mem_right hwrites' hr'
  obtain ⟨hat, hne⟩ := mem_entries.1 he'
  rw [hdecoded] at hat
  obtain ⟨r, hr, haddress, htexts⟩ := exists_of_decodedLayers hnodup hat hne
  have hwritten := writes_at_address hshape hselector hnone hitems
  obtain ⟨e, _, hwrites, he⟩ := exists_of_mem_right hwritten hr
  obtain ⟨hcut, hds⟩ := (legible_toItems_iff hitems none 1).1 hlegible r hr
  have hstate : e.state = e'.state := congrArg Prod.snd (he.symm.trans haddress)
  have hsame : r'.selector = r.selector := by
    have hread := hwrites.selector
    rw [hstate] at hread
    exact Except.ok.inj (hwrites'.selector.symm.trans hread)
  have hplain : Plain e'.properties.entries := by
    intro x hx
    obtain ⟨d, hd, rfl⟩ := htexts x hx
    exact (hds d hd).read
  have hbody := eq_map_of_plain hplain hwrites'.body
  refine ⟨⟨hsame ▸ hcut, ?_⟩, ⟨?_, ?_⟩⟩
  · intro d' hd'
    rw [hbody] at hd'
    obtain ⟨x, hx, rfl⟩ := List.mem_map.1 hd'
    obtain ⟨d, hd, rfl⟩ := htexts x hx
    exact ⟨(hds d hd).property, (hds d hd).uncommented, (hds d hd).value⟩
  · intro d' hd'
    rw [hbody] at hd'
    obtain ⟨x, _, rfl⟩ := List.mem_map.1 hd'
    rfl
  · rw [hbody, List.map_map]
    exact e'.properties.nodup_keys

/-- Lossless properties are decoded as they are read. -/
theorem rereads_decoded (hlossless : ∀ properties ∈ s.addressed, Lossless properties) {bp ps : String}
    {properties properties' : Properties} (hat : at? s.layers bp ps = some properties)
    (hat' : at? decoded.layers bp ps = some properties') : Rereads properties properties' := by
  cases hempty : properties.isEmpty with
  | true =>
      have hempty' := isEmpty_of_decoded hshape hselector hnone hitems hdecoded hat hat' hempty
      refine ⟨hempty.trans hempty'.symm, fun ds hds => ?_⟩
      rw [List.isEmpty_iff.1 hempty] at hds
      rw [List.isEmpty_iff.1 hempty']
      exact hds
  | false =>
      have he : ⟨bp, ps, properties⟩ ∈ s.entries := mem_entries.2 ⟨hat, hempty⟩
      have hwritten := writes_at_address hshape hselector hnone hitems
      obtain ⟨r, hr, hwrites, haddress⟩ := exists_of_mem_right hwritten.flip he
      have hunique : ∀ ds, ReadAs properties.entries ds → ds = r.body := fun ds hds =>
        List.right_unique_forall₂' (fun _ _ _ hd hd' => Except.ok.inj (hd.symm.trans hd')) hds hwrites.body
      obtain ⟨ds, hds, hbare⟩ := hlossless properties (exists_of_mem_entries he).2.1
      cases hunique ds hds
      have hdecodedAt := at?_decodedLayers (nodup_addresses hshape hselector hnone hitems) hr
      rw [haddress, ← hdecoded] at hdecodedAt
      cases hat'.symm.trans hdecodedAt
      refine ⟨?_, fun ds hds => ?_⟩
      · rw [OrderedMap.isEmpty, OrderedMap.isEmpty, entries_of_bare hbare, Bool.eq_iff_iff,
          List.isEmpty_iff_length_eq_zero, List.isEmpty_iff_length_eq_zero, List.length_map,
          hwrites.body.length_eq]
      · rw [hunique ds hds, entries_of_bare hbare]
        exact readAs_of_bare ((legible_toItems_iff hitems none 1).1 hlegible r hr).2 hbare

end

/-- Properties whose rules are bare are lossless. -/
theorem lossless_of_bare {s : Style} {selector : String} {items : List Item}
    (hitems : s.toItems selector = .ok items) (hbare : ∀ r ∈ itemRuled none 1 items, Bare r.body) :
    ∀ properties ∈ s.addressed, Lossless properties := by
  intro properties haddressed
  cases hempty : properties.isEmpty with
  | true =>
      refine ⟨[], ?_, ⟨by simp, List.nodup_nil⟩⟩
      rw [List.isEmpty_iff.1 hempty]
      exact .nil
  | false =>
      obtain ⟨σ, _, hwrites⟩ := writes_toItems hitems
      obtain ⟨states, hstates, hproperties⟩ := List.mem_flatMap.1 haddressed
      obtain ⟨tier, htier, rfl⟩ := List.mem_map.1 hstates
      obtain ⟨x, hx, rfl⟩ := List.mem_map.1 hproperties
      have he : ⟨tier.1, x.1, x.2⟩ ∈ s.entries :=
        List.mem_flatMap.2 ⟨tier, htier, List.mem_map.2 ⟨x, List.mem_filter.2 ⟨hx, by simp [hempty]⟩, rfl⟩⟩
      obtain ⟨r, hr, hwrites⟩ := exists_of_mem_right hwrites.flip he
      exact ⟨r.body, hwrites.body, hbare r hr⟩

/-- A merged style whose stylesheet survives a print is decoded to one with the same print, exactly if its
properties are lossless. -/
theorem print_decoded_iff {styles : List Style} {selector : String} {sheet : Sheet}
    (hselector : readSelector selector = .ok selector)
    (hnone : ∀ p : PseudoState, p ≠ .base → ¬ ':' :: p.key.toList <:+: selector.toList)
    (hsheet : (merge .standard styles).toSheet selector = .ok sheet) (hsurvives : sheet.Survives .compact)
    (id name : String) :
    (∃ again decoded projected, Sheet.read (sheet.print .compact) = .ok again ∧
      ofSheet again id name .standard = .ok decoded ∧ decoded.toSheet selector = .ok projected ∧
      projected.print .compact = sheet.print .compact) ↔
    ∀ properties ∈ (merge .standard styles).addressed, Lossless properties := by
  obtain ⟨items, hitems, rfl⟩ := toSheet_eq_ok.1 hsheet
  have hshape := shape_merge_standard styles
  have hnamed := wellNamed_toItems hitems
  have hlegible := (survives_iff_legible hnamed).1 hsurvives
  have hread := read_print_of_legible hlegible
  constructor
  · rintro ⟨again, decoded, projected, hagain, hdecoded, hprojected, hprint⟩
    cases hread.symm.trans hagain
    cases (ofSheet_ofItems items id name .standard).symm.trans hdecoded
    obtain ⟨items', hitems', rfl⟩ := toSheet_eq_ok.1 hprojected
    have hruled : ∀ r ∈ itemRuled none 1 items', r.Legible .compact ∧ Bare r.body := fun r hr =>
      ruled_of_decoded hshape hselector hnone hitems hlegible rfl hitems' hr
    -- both are read back from the same print
    have hread' := read_print_of_legible ((legible_toItems_iff hitems' none 1).2 fun r hr => (hruled r hr).1)
    rw [hprint, hread] at hread'
    have heq : items = items' :=
      Sheet.ofItems_inj_of_listing hnamed (wellNamed_toItems hitems') (by rw [Except.ok.inj hread'])
    rw [← heq] at hruled
    exact lossless_of_bare hitems fun r hr => (hruled r hr).2
  · intro hlossless
    refine ⟨_, _, _, hread, ofSheet_ofItems items id name .standard, toSheet_eq_ok.2 ⟨items, ?_, rfl⟩, rfl⟩
    refine toItems_of_rereads (hshape.trans (shape_decodedLayers _).symm) ?_ hitems
    intro bp ps properties properties' hat hat'
    exact rereads_decoded hshape hselector hnone hitems hlegible rfl hlossless hat hat'

theorem not_infix_a : ∀ p : PseudoState, p ≠ .base → ¬ ':' :: p.key.toList <:+: ".a".toList := by
  intro p hp h
  rw [← Text.occurs_iff] at h
  cases p
  · exact hp rfl
  all_goals exact absurd h (by decide)

/-- A tier with two properties is projected again as it was. -/
theorem print_decoded_hover : ∃ sheet again decoded projected,
    (merge .standard [((default : Style).set "md" "hover" "color" "red").set "md" "hover" "margin"
      " 0 auto"]).toSheet ".a" = .ok sheet ∧ sheet.Survives .compact ∧
      Sheet.read (sheet.print .compact) = .ok again ∧ ofSheet again "id" "name" .standard = .ok decoded ∧
      decoded.toSheet ".a" = .ok projected ∧ projected.print .compact = sheet.print .compact := by
  have hsheet : (merge .standard [((default : Style).set "md" "hover" "color" "red").set "md" "hover" "margin"
      " 0 auto"]).toSheet ".a" = .ok (.ofItems [.group "media" "(max-width:992px)"
        [.rule ".a:hover" [⟨"color", ⟨"red", false⟩⟩, ⟨"margin", ⟨"0 auto", false⟩⟩]]]) := by
    decide +kernel
  have hsurvives : (Sheet.ofItems [.group "media" "(max-width:992px)"
      [.rule ".a:hover" [⟨"color", ⟨"red", false⟩⟩, ⟨"margin", ⟨"0 auto", false⟩⟩]]]).Survives .compact := by
    have hlisting := Sheet.listing_ofItems [.group "media" "(max-width:992px)"
      [.rule ".a:hover" [⟨"color", ⟨"red", false⟩⟩, ⟨"margin", ⟨"0 auto", false⟩⟩]]]
    exact ⟨_, _, by decide +kernel, hlisting, hlisting⟩
  have haddressed : ∀ properties ∈ (merge .standard [((default : Style).set "md" "hover" "color" "red").set
      "md" "hover" "margin" " 0 auto"]).addressed,
      properties = ∅ ∨ properties = ((∅ : Properties).insert "color" "red").insert "margin" " 0 auto" := by
    decide +kernel
  obtain ⟨again, decoded, projected, h⟩ :=
    (print_decoded_iff (by decide +kernel) not_infix_a hsheet hsurvives "id" "name").2 fun properties h => by
      rcases haddressed properties h with rfl | rfl
      · exact ⟨[], .nil, by simp, List.nodup_nil⟩
      · exact ⟨[⟨"color", ⟨"red", false⟩⟩, ⟨"margin", ⟨"0 auto", false⟩⟩],
          .cons (by decide +kernel) (.cons (by decide +kernel) .nil), by simp, by simp⟩
  exact ⟨_, again, decoded, projected, hsheet, hsurvives, h⟩

/-- A mark in a value is written, but what is decoded has none. -/
theorem exists_print_decoded_ne : ∃ sheet again decoded projected,
    readSelector ".a" = .ok ".a" ∧
      (∀ p : PseudoState, p ≠ .base → ¬ ':' :: p.key.toList <:+: ".a".toList) ∧
      (merge .standard [(default : Style).set "default" "default" "color" "red !important"]).toSheet ".a" =
        .ok sheet ∧
      Sheet.read (sheet.print .compact) = .ok again ∧ ofSheet again "id" "name" .standard = .ok decoded ∧
      decoded.toSheet ".a" = .ok projected ∧ projected.print .compact ≠ sheet.print .compact := by
  have hsheet : (merge .standard [(default : Style).set "default" "default" "color"
      "red !important"]).toSheet ".a" = .ok (.ofItems [.rule ".a" [⟨"color", ⟨"red", true⟩⟩]]) := by
    decide +kernel
  have hread : Sheet.read ((Sheet.ofItems [.rule ".a" [⟨"color", ⟨"red", true⟩⟩]]).print .compact) =
      .ok (.ofItems [.rule ".a" [⟨"color", ⟨"red", true⟩⟩]]) := by
    decide +kernel
  have hdecoded := ofSheet_ofItems [.rule ".a" [⟨"color", ⟨"red", true⟩⟩]] "id" "name" .standard
  refine ⟨_, _, _, .ofItems [.rule ".a" [⟨"color", ⟨"red", false⟩⟩]], by decide +kernel, not_infix_a,
    hsheet, hread, hdecoded, by decide +kernel, by decide +kernel⟩

end Style
end TieredStyle
