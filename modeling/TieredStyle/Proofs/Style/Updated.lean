import TieredStyle.Proofs.Style.Merged
import TieredStyle.Proofs.Style.Selector
import TieredStyle.Proofs.Style.Written
import TieredStyle.Proofs.Tree.Declared

/-!
# Setting a property before and after projecting

A property that is set at an address with properties changes one rule of the projected stylesheet. An
update of the stylesheet finds this rule among all others and changes it in the same way.
-/
namespace TieredStyle

namespace Style
open TieredStyle.Css

/-! ## The declarations of an address -/

/-- Setting a property comes to setting the declaration. -/
theorem read_declared {p v : String} {d : Declaration} (hd : Declaration.read p v = .ok d)
    (hp : d.property = p) {es : List (String × String)} {ds : List Declaration}
    (hkeys : ∀ e ∈ es, readProperty e.1 = .ok e.1)
    (h : ReadAs es ds) : ReadAs (OrderedMap.alterEntries p (fun _ => v) es) (declared d ds) := by
  induction h with
  | nil => exact .cons hd .nil
  | @cons e e' es ds he hes ih =>
      have hkey : e'.property = e.1 :=
        Except.ok.inj ((Declaration.read_eq_ok.1 he).1.symm.trans (hkeys e List.mem_cons_self))
      rw [OrderedMap.alterEntries, declared, hkey, hp]
      split
      next heq => exact .cons (by rw [heq]; exact hd) hes
      next => exact .cons he (ih fun e he => hkeys e (List.mem_cons_of_mem _ he))

/-! ## The projection with other properties at an address -/

theorem filter_of_split {states : States} {ps : String} {properties : Properties}
    {pre post : List (String × Properties)} (hne : properties.isEmpty = false)
    (h : states.entries = pre ++ (ps, properties) :: post) :
    states.entries.filter (!·.2.isEmpty) =
      pre.filter (!·.2.isEmpty) ++ (ps, properties) :: post.filter (!·.2.isEmpty) := by
  rw [h, List.filter_append, List.filter_cons_of_pos (by simp [hne])]

theorem RulesOf.isEmpty_of_split {σ : String} {e : String × Properties}
    {pre post : List (String × Properties)} {rules : List Item}
    (h : RulesOf σ (pre ++ e :: post) rules) : rules.isEmpty = false := by
  obtain ⟨_, _, _, rfl, _⟩ := forall₂_split h
  simp

/-- In some items the rule for `e` gets another body, and the rules before it are those for `earlier`. -/
def Entry.Changes (σ : String) (e : Entry) (f : List Declaration → List Declaration)
    (m : Option String) (next : Nat) (earlier : List Entry) (items items' : List Item) : Prop :=
  ∃ before r, Rewrites r (f r.body) m next before items items' ∧
    List.Forall₂ (Entry.Writes σ) earlier before ∧ e.Writes σ r

section

variable {σ bp ps : String} {properties properties' : Properties}
  {f : List Declaration → List Declaration}
  (hf : ∀ ds, ReadAs properties.entries ds → ReadAs properties'.entries (f ds))
  (hne : properties.isEmpty = false) (hne' : properties'.isEmpty = false)

include hf

theorem exists_changes_rules {pre post : List (String × Properties)} {rules : List Item}
    {m : Option String} (hm : m = (Breakpoint.ofKey? bp).bind Breakpoint.params?)
    (h : RulesOf σ (pre ++ (ps, properties) :: post) rules) (next : Nat) :
    ∃ rules', RulesOf σ (pre ++ (ps, properties') :: post) rules' ∧
      Entry.Changes σ ⟨bp, ps, properties⟩ f m next (pre.map fun e => ⟨bp, e.1, e.2⟩) rules rules' := by
  obtain ⟨rulesPre, rule, rulesPost, rfl, hpre, hrule, hpost⟩ := forall₂_split h
  obtain ⟨selector, body, rfl, hselector, hbody⟩ := ruleOf_eq_ok.1 hrule
  obtain ⟨hwrites, hmedia⟩ := writes_rules hm hpre next
  have hrule' : ruleOf σ ps properties' = .ok (.rule selector (f body)) :=
    ruleOf_eq_ok.2 ⟨selector, f body, rfl, hselector, hf body hbody⟩
  have hhere : Rewrites ⟨m, next + itemCount rulesPre, selector, body⟩ (f body)
      (mediaAfterAll m rulesPre) (next + itemCount rulesPre) [] (.rule selector body :: rulesPost)
      (.rule selector (f body) :: rulesPost) := by
    rw [hmedia]
    exact .here
  have hrewrites := hhere.append_left rulesPre
  rw [List.append_nil] at hrewrites
  exact ⟨_, List.rel_append hpre (.cons hrule' hpost), _, _, hrewrites, hwrites, hm, hselector, hbody⟩

include hne hne'

theorem exists_changes_itemsOf {states states' : States} {pre post : List (String × Properties)}
    {items : List Item} (hstates : states.entries = pre ++ (ps, properties) :: post)
    (hstates' : states'.entries = pre ++ (ps, properties') :: post)
    (h : itemsOf σ bp states = .ok items) (next : Nat) :
    ∃ items', itemsOf σ bp states' = .ok items' ∧ Entry.Changes σ ⟨bp, ps, properties⟩ f none next
      ((pre.filter (!·.2.isEmpty)).map fun e => ⟨bp, e.1, e.2⟩) items items' := by
  obtain ⟨rules, hrules, hitems⟩ := itemsOf_eq_ok.1 h
  rw [filter_of_split hne hstates] at hrules
  cases hm : (Breakpoint.ofKey? bp).bind Breakpoint.params? with
  | none =>
      rw [hm] at hitems
      cases hitems
      obtain ⟨rules', hrules', hchanges⟩ := exists_changes_rules hf hm.symm hrules next
      refine ⟨rules', itemsOf_eq_ok.2 ⟨rules', ?_, by rw [hm]⟩, hchanges⟩
      rw [filter_of_split hne' hstates']
      exact hrules'
  | some params =>
      rw [hm] at hitems
      simp only [hrules.isEmpty_of_split, Bool.false_eq_true, ↓reduceIte] at hitems
      cases hitems
      obtain ⟨rules', hrules', before, r, hrewrites, hearlier⟩ :=
        exists_changes_rules hf hm.symm hrules (next + 2)
      refine ⟨[.group "media" params rules'], itemsOf_eq_ok.2 ⟨rules', ?_, ?_⟩, before, r,
        .inside ?_, hearlier⟩
      · rw [filter_of_split hne' hstates']
        exact hrules'
      · simp [hm, hrules'.isEmpty_of_split]
      · rw [if_pos isMedia_media]
        exact hrewrites

theorem exists_changes_toItems {s s' : Style} {selector : String} {tiers tiers' : List (String × States)}
    {states states' : States} {pre post : List (String × Properties)} {items : List Item}
    (hs : s.layers.entries = tiers ++ (bp, states) :: tiers')
    (hs' : s'.layers.entries = tiers ++ (bp, states') :: tiers')
    (hstates : states.entries = pre ++ (ps, properties) :: post)
    (hstates' : states'.entries = pre ++ (ps, properties') :: post)
    (hσ : readSelector selector = .ok σ) (h : s.toItems selector = .ok items) :
    ∃ items', s'.toItems selector = .ok items' ∧ Entry.Changes σ ⟨bp, ps, properties⟩ f none 1
      ((tiers.flatMap fun e => entriesOf e.1 e.2) ++
        (pre.filter (!·.2.isEmpty)).map fun e => ⟨bp, e.1, e.2⟩) items items' := by
  obtain ⟨_, written, hσ', hwritten, rfl⟩ := toItems_eq_ok.1 h
  cases hσ.symm.trans hσ'
  rw [hs] at hwritten
  obtain ⟨writtenPre, tier, writtenPost, rfl, hpre, htier, hpost⟩ := forall₂_split hwritten
  obtain ⟨hwrites, hmedia⟩ := writes_tiers hpre 1
  obtain ⟨tier', htier', before, r, hrewrites, hearlier, hr⟩ := exists_changes_itemsOf hf hne hne'
    hstates hstates' htier (1 + itemCount writtenPre.flatten)
  refine ⟨writtenPre.flatten ++ (tier' ++ writtenPost.flatten), ?_, _, r, ?_,
    List.rel_append hwrites hearlier, hr⟩
  · refine toItems_eq_ok.2 ⟨σ, writtenPre ++ tier' :: writtenPost, hσ, ?_, by simp⟩
    rw [hs']
    exact List.rel_append hpre (.cons htier' hpost)
  · rw [List.flatten_append, List.flatten_cons]
    refine Rewrites.append_left _ ?_
    rw [hmedia]
    exact hrewrites.append_right _

end

/-- Setting a property changes the rule of its address, and the rules before that one are for the tiers
before or for other states. -/
theorem exists_rewrites_set {s : Style} {bp ps p v σ selector : String} {properties : Properties}
    {d : Declaration} {items : List Item} (hat : at? s.layers bp ps = some properties)
    (hne : properties.isEmpty = false) (hkeys : ∀ k ∈ properties.keys, readProperty k = .ok k)
    (hd : Declaration.read p v = .ok d) (hp : d.property = p) (hσ : readSelector selector = .ok σ)
    (h : s.toItems selector = .ok items) :
    ∃ items' before r, (s.set bp ps p v).toItems selector = .ok items' ∧
      Rewrites r (declared d r.body) none 1 before items items' ∧
      Entry.Writes σ ⟨bp, ps, properties⟩ r ∧ ∃ pre post, s.layers.keys = pre ++ bp :: post ∧ bp ∉ pre ∧
        ∀ r' ∈ before, ∃ e ∈ s.entries, e.Writes σ r' ∧
          (e.breakpoint ∈ pre ∨ e.breakpoint = bp ∧ e.state ≠ ps) := by
  obtain ⟨states, hstates, hproperties⟩ := Option.bind_eq_some_iff.1 hat
  obtain ⟨tiers, tiers', hs, htiers, hs'⟩ := OrderedMap.exists_split hstates
  obtain ⟨pre, post, hsplit, hpre, hsplit'⟩ := OrderedMap.exists_split hproperties
  have hf : ∀ ds, ReadAs properties.entries ds →
      ReadAs (properties.insert p v).entries (declared d ds) :=
    fun ds => read_declared hd hp fun e he => hkeys e.1 (List.mem_map_of_mem he)
  have hset : (s.set bp ps p v).layers.entries =
      tiers ++ (bp, states.alter ps fun m => (m.getD ∅).insert p v) :: tiers' := hs' _
  obtain ⟨items', hitems', before, r, hrewrites, hearlier, hr⟩ := exists_changes_toItems hf hne
    (OrderedMap.isEmpty_insert ..) hs hset hsplit (hsplit' _) hσ h
  refine ⟨items', before, r, hitems', hrewrites, hr, tiers.map Prod.fst, tiers'.map Prod.fst, ?_, htiers,
    fun r' hr' => ?_⟩
  · rw [OrderedMap.keys, hs, List.map_append, List.map_cons]
  · obtain ⟨e, he, hwrites⟩ := exists_of_mem_right hearlier hr'
    refine ⟨e, ?_, hwrites, ?_⟩
    · simp only [entries, entriesOf, hs, hsplit, List.flatMap_append, List.flatMap_cons,
        List.filter_append, List.map_append]
      rcases List.mem_append.1 he with he | he
      · exact List.mem_append_left _ he
      · exact List.mem_append_right _ (List.mem_append_left _ (List.mem_append_left _ he))
    · rcases List.mem_append.1 he with he | he
      · obtain ⟨tier, htier, he⟩ := List.mem_flatMap.1 he
        obtain ⟨x, _, rfl⟩ := List.mem_map.1 he
        exact .inl (List.mem_map_of_mem htier)
      · obtain ⟨x, hx, rfl⟩ := List.mem_map.1 he
        refine .inr ⟨rfl, fun heq => hpre ?_⟩
        rw [← heq]
        exact List.mem_map_of_mem (List.mem_filter.1 hx).1

/-! ## The update -/

theorem Entry.Writes.state_eq {e : Entry} {r : Ruled} {selector : String} {state : PseudoState}
    (h : e.Writes selector r) (hselector : readSelector selector = .ok selector)
    (hstate : ∃ p : PseudoState, p.key = e.state) (hr : r.selector = state.applyTo selector) :
    e.state = state.key := by
  obtain ⟨p, hp⟩ := hstate
  have hread := h.selector
  rw [← hp] at hread ⊢
  have heq := Except.ok.inj ((readSelector_applyTo hselector p).symm.trans hread)
  rw [PseudoState.applyTo_inj (heq.trans hr)]

theorem Entry.Writes.breakpoint_eq {e : Entry} {r : Ruled} {σ params : String} {b : Breakpoint}
    (h : e.Writes σ r) (hb : b.params? = some params) (hr : r.media = some params) :
    e.breakpoint = b.key := by
  obtain ⟨b', hb', hparams⟩ := Option.bind_eq_some_iff.1 (h.media.symm.trans hr)
  rw [← Breakpoint.key_ofKey? hb', ← Breakpoint.ofMedia_params hparams, Breakpoint.ofMedia_params hb]

theorem Entry.Writes.meant {b : Breakpoint} {state : PseudoState} {properties : Properties}
    {selector : String} {r : Ruled} (h : Entry.Writes selector ⟨b.key, state.key, properties⟩ r)
    (hselector : readSelector selector = .ok selector) :
    r.meant (state.applyTo selector) b.params? = true := by
  have hselected : r.selector = state.applyTo selector :=
    Except.ok.inj (h.selector.symm.trans (readSelector_applyTo hselector state))
  have hmedia : r.media = b.params? := by
    rw [h.media, Breakpoint.ofKey?_key, Option.bind_some]
  rw [Ruled.meant, hselected, hmedia]
  cases b.params? <;> simp

section

variable {s : Style} {selector : String} {b : Breakpoint} {state : PseudoState} {pre post : List String}
  (hshape : shape s.layers = Breakpoint.all.map fun b => (b.key, PseudoState.all.map (·.key)))
  (hselector : readSelector selector = .ok selector) (hkeys : s.layers.keys = pre ++ b.key :: post)
  (hnotMem : b.key ∉ pre)

include hshape hselector hkeys hnotMem

/-- The update means no rule that stands before the one of its address. -/
theorem Entry.Writes.not_meant {e : Entry} {r : Ruled} (h : e.Writes selector r) (he : e ∈ s.entries)
    (hplace : e.breakpoint ∈ pre ∨ e.breakpoint = b.key ∧ e.state ≠ state.key) :
    r.meant (state.applyTo selector) b.params? = false := by
  rw [← Bool.not_eq_true]
  intro hmeant
  simp only [Ruled.meant, Bool.and_eq_true, decide_eq_true_eq] at hmeant
  obtain ⟨hselected, hmedia⟩ := hmeant
  have hstate := (exists_keys_of_shape hshape (mem_entries.1 he).1).2
  rcases hplace with hpre | ⟨_, hne⟩
  · cases hb : b.params? with
    | some params =>
        rw [hb] at hmedia
        rw [h.breakpoint_eq hb (by simpa using hmedia)] at hpre
        exact hnotMem hpre
    | none =>
        -- without media any rule of the state would do, but the base tier comes first
        have hbase : b = .base := by
          cases b <;> first | rfl | cases hb
        subst hbase
        rw [keys_eq_of_shape hshape] at hkeys
        cases pre with
        | nil => cases hpre
        | cons k pre =>
            have hhead : Breakpoint.base.key = k := (List.cons.inj hkeys).1
            rw [hhead] at hnotMem
            exact hnotMem List.mem_cons_self
  · exact hne (h.state_eq hselector hstate hselected)

/-- Among the rules of a projected stylesheet, the update means the rule of its address. -/
theorem find?_of_writes {properties : Properties} {r : Ruled} {before : List Ruled}
    (hr : Entry.Writes selector ⟨b.key, state.key, properties⟩ r)
    (hbefore : ∀ r' ∈ before, ∃ e ∈ s.entries, e.Writes selector r' ∧
      (e.breakpoint ∈ pre ∨ e.breakpoint = b.key ∧ e.state ≠ state.key)) (after : List Ruled) :
    (before ++ r :: after).find? (Ruled.meant (state.applyTo selector) b.params?) = some r := by
  have hnone : before.find? (Ruled.meant (state.applyTo selector) b.params?) = none := by
    refine List.find?_eq_none.2 fun r' hr' => ?_
    obtain ⟨e, he, hwrites, hplace⟩ := hbefore r' hr'
    rw [hwrites.not_meant hshape hselector hkeys hnotMem he hplace]
    exact Bool.false_ne_true
  rw [List.find?_append, hnone, Option.none_or, List.find?_cons_of_pos (hr.meant hselector)]

end

/-- An update of some entries at a rule that it means. -/
theorem update_ofItems {selector property value : String} {b : Breakpoint} {state : PseudoState}
    {d : Declaration} {items items' : List Item} {before : List Ruled} {r : Ruled}
    (hselector : readSelector selector = .ok selector) (hd : Declaration.read property value = .ok d)
    (hrewrites : Rewrites r (declared d r.body) none 1 before items items')
    (hfind : ∀ after, (before ++ r :: after).find?
      (Ruled.meant (state.applyTo selector) b.params?) = some r) :
    ∃ updated, (Sheet.ofItems items).update property value
        { selector, state := state.key, media := b.mediaQuery? } = .ok updated ∧
      updated.listing = (Sheet.ofItems items').listing := by
  obtain ⟨after, hafter⟩ := hrewrites.itemRuled_eq
  obtain ⟨updated, hupdated, hlisting⟩ := Sheet.listing_declareIn hrewrites
  refine ⟨updated, ?_, hlisting⟩
  have hread : reading (Declaration.read property value) = .ok d := by rw [hd]; rfl
  have hselect : reading (readSelector (PseudoState.select selector state.key)) =
      .ok (state.applyTo selector) := by
    have := readSelector_applyTo hselector state
    rw [PseudoState.applyTo] at this ⊢
    rw [this]
    rfl
  have hmedia : (b.mediaQuery?.mapM fun params => reading (readParams params)) = .ok b.params? := by
    cases hq : b.mediaQuery? with
    | none =>
        rw [Breakpoint.params?_of_mediaQuery? hq]
        rfl
    | some query =>
        obtain ⟨params, hp, hparams⟩ := Breakpoint.readParams_mediaQuery? hq
        rw [hp, Option.mapM_some, hparams]
        rfl
  have hrule : shaping ((Sheet.ofItems items).findRule? (state.applyTo selector) b.params?) =
      .ok (some r.id) := by
    rw [Sheet.findRule?_ofItems, hafter, hfind after]
    rfl
  have hblock : (Sheet.ofItems items).blockOf r.id = .ok (r.id + 1) :=
    (shows_ruled_ofItems r (by simp [hafter])).blockOf_rule
  rw [Sheet.update, hread]
  simp only [bind, Except.bind, hselect, hmedia, Bool.or_false, hrule, hblock]
  rw [hupdated]
  rfl

/-- Updating the stylesheet of a style with the standard addresses comes to projecting the style with
the property set, as far as the listings tell. -/
theorem exists_update_of_shape {s : Style} {selector property value : String} {v : Value} {b : Breakpoint}
    {state : PseudoState} {sheet : Sheet}
    (hshape : shape s.layers = Breakpoint.all.map fun b => (b.key, PseudoState.all.map (·.key)))
    (hselector : readSelector selector = .ok selector) (hsheet : s.toSheet selector = .ok sheet)
    (hne : (s.properties b state).isEmpty = false)
    (hkeys : ∀ k ∈ (s.properties b state).keys, readProperty k = .ok k)
    (hproperty : readProperty property = .ok property) (hvalue : readValue value = .ok v) :
    ∃ updated projected listing,
      sheet.update property value { selector, state := state.key, media := b.mediaQuery? } =
          .ok updated ∧
        (s.set b.key state.key property value).toSheet selector = .ok projected ∧
        updated.listing = .ok listing ∧ projected.listing = .ok listing := by
  obtain ⟨items, hitems, rfl⟩ := toSheet_eq_ok.1 hsheet
  rw [properties, lookup_eq] at hne hkeys
  cases hat : at? s.layers b.key state.key with
  | none =>
      rw [hat] at hne
      cases hne
  | some properties =>
      rw [hat, Option.getD_some] at hne hkeys
      have hd : Declaration.read property value = .ok ⟨property, v⟩ :=
        Declaration.read_eq_ok.2 ⟨hproperty, hvalue⟩
      obtain ⟨items', before, r, hitems', hrewrites, hr, pre, post, hlayers, hnotMem, hbefore⟩ :=
        exists_rewrites_set hat hne hkeys hd rfl hselector hitems
      have hfind := find?_of_writes hshape hselector hlayers hnotMem hr hbefore
      obtain ⟨updated, hupdated, hlisting⟩ := update_ofItems hselector hd hrewrites hfind
      rw [Sheet.listing_ofItems] at hlisting
      exact ⟨updated, .ofItems items', _, hupdated, toSheet_eq_ok.2 ⟨items', hitems', rfl⟩, hlisting,
        Sheet.listing_ofItems items'⟩

/-- Updating the stylesheet of a merged style comes to projecting the style with the property set. -/
theorem exists_update_toSheet {styles : List Style} {selector property value : String} {v : Value}
    {b : Breakpoint} {state : PseudoState} {sheet : Sheet}
    (hselector : readSelector selector = .ok selector)
    (hsheet : (merge .standard styles).toSheet selector = .ok sheet)
    (hne : ((merge .standard styles).properties b state).isEmpty = false)
    (hkeys : ∀ k ∈ ((merge .standard styles).properties b state).keys, readProperty k = .ok k)
    (hproperty : readProperty property = .ok property) (hvalue : readValue value = .ok v) :
    ∃ updated projected listing,
      sheet.update property value { selector, state := state.key, media := b.mediaQuery? } =
          .ok updated ∧
        ((merge .standard styles).set b.key state.key property value).toSheet selector =
          .ok projected ∧
        updated.listing = .ok listing ∧ projected.listing = .ok listing :=
  exists_update_of_shape (shape_merge_standard styles) hselector hsheet hne hkeys hproperty hvalue

/-- A value that is there already, replaced under media. -/
theorem exists_update_toSheet_hover : ∃ sheet updated projected listing,
    (merge .standard [(default : Style).set "md" "hover" "color" "red"]).toSheet ".a" = .ok sheet ∧
      sheet.update "color" "blue !important"
          { selector := ".a", state := "hover", media := some "(max-width: 992px)" } = .ok updated ∧
      ((merge .standard [(default : Style).set "md" "hover" "color" "red"]).set "md" "hover" "color"
          "blue !important").toSheet ".a" = .ok projected ∧
      updated.listing = .ok listing ∧ projected.listing = .ok listing := by
  have hsheet : (merge .standard [(default : Style).set "md" "hover" "color" "red"]).toSheet ".a" =
      .ok (.ofItems
        [.group "media" "(max-width:992px)" [.rule ".a:hover" [⟨"color", ⟨"red", false⟩⟩]]]) := by
    decide +kernel
  have hvalue : readValue "blue !important" = .ok ⟨"blue", true⟩ := by decide +kernel
  obtain ⟨updated, projected, listing, h⟩ := @exists_update_toSheet _ _ "color" _ _ .md .hover _
    (by decide +kernel) hsheet (by decide +kernel) (by decide +kernel) (by decide +kernel) hvalue
  exact ⟨_, updated, projected, listing, hsheet, h⟩

end Style
end TieredStyle
