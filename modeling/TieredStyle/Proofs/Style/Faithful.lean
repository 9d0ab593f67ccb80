import TieredStyle.Proofs.Style.Assembled
import TieredStyle.Proofs.Style.Written
import TieredStyle.Proofs.Tree.Filled
import TieredStyle.Proofs.Tree.Retrieved

/-!
# Projection is exact

A style is projected exactly if each text at an address with properties can be read. Then the stylesheet has a
rule for each of these addresses and nothing else, inside `@media` where the tier has a bound.
-/
namespace TieredStyle
open TieredStyle.Css

namespace Css

theorem itemTrees_append (next : Nat) (items items' : List Item) :
    itemTrees next (items ++ items') = itemTrees next items ++ itemTrees (next + itemCount items) items' := by
  induction items generalizing next with
  | nil => simp [itemTrees, itemCount]
  | cons item items ih => simp [itemTrees, itemCount, ih, Nat.add_assoc]

/-! ## The rules of a stylesheet -/

namespace Sheet

/-- The rules, in document order. -/
def rules (s : Sheet) : Except ShapeError (List Nat) := do
  return (← s.entered).filter fun id => (s.node? id).any (·.kind = .rule)

theorem rules_ofItems (items : List Item) :
    (ofItems items).rules = .ok ((itemRuled none 1 items).map Ruled.id) := by
  have hids : (ofItems items).tree.ids = (visits none (ofItems items).tree.events).map Visit.id := by
    rw [Tree.ids, Tree.preorder, ← visits_entered none, List.map_map]
    rfl
  have hrule : ∀ v ∈ visits none (ofItems items).tree.events,
      ((fun id => ((ofItems items).node? id).any (·.kind = .rule)) ∘ Visit.id) v = v.isRule := by
    intro v hv
    rw [Function.comp_apply, node?_of_mem_visits hv]
    rfl
  rw [rules, (coherent_ofItems items).entered]
  refine congrArg Except.ok ?_
  rw [hids, List.filter_map, List.filter_congr hrule, (seen_ofItems items).1, List.map_map]
  rfl

end Sheet
end Css

/-! ## What becomes of a style -/

/-- The keys of the tiers with a bound. -/
def Breakpoint.Bounded (key : String) : Prop := key ∈ ["xl", "lg", "md", "sm", "xs"]

theorem Breakpoint.bounded_iff {key : String} : Bounded key ↔ ∃ b, ofKey? key = some b ∧ b ≠ .base := by
  constructor
  · intro h
    simp only [Bounded, List.mem_cons, List.not_mem_nil, or_false] at h
    rcases h with rfl | rfl | rfl | rfl | rfl
    · exact ⟨.xl, rfl, by simp⟩
    · exact ⟨.lg, rfl, by simp⟩
    · exact ⟨.md, rfl, by simp⟩
    · exact ⟨.sm, rfl, by simp⟩
    · exact ⟨.xs, rfl, by simp⟩
  · rintro ⟨b, hb, hne⟩
    rw [← key_ofKey? hb]
    cases b <;> simp_all [Bounded, Breakpoint.key]

theorem Breakpoint.params?_eq_none_iff {key : String} : (ofKey? key).bind params? = none ↔ ¬ Bounded key := by
  rw [bounded_iff]
  cases ofKey? key with
  | none => simp
  | some b => cases b <;> simp [params?, maxWidth?]

theorem Breakpoint.exists_query {b : Breakpoint} {params : String} (h : b.params? = some params) :
    ∃ query, b.mediaQuery? = some query ∧ readParams query = .ok params := by
  cases hquery : b.mediaQuery? with
  | none =>
      rw [params?_of_mediaQuery? hquery] at h
      cases h
  | some query =>
      obtain ⟨params', hparams', hread⟩ := readParams_mediaQuery? hquery
      cases h.symm.trans hparams'
      exact ⟨query, rfl, hread⟩

namespace Style

/-- All texts at the address can be read. -/
structure Entry.Accepted (σ : String) (e : Entry) : Prop where
  selector : ∃ selector, readSelector (PseudoState.select σ e.state) = .ok selector
  properties : ∀ x ∈ e.properties.entries,
    (∃ property, readProperty x.1 = .ok property) ∧ ∃ value, readValue x.2 = .ok value

/-- The node is a rule that has the selector for the state of the entry and the declarations of its
properties. -/
def Entry.RuledAt (σ : String) (sheet : Sheet) (e : Entry) (id : Nat) : Prop :=
  ∃ selector block, readSelector (PseudoState.select σ e.state) = .ok selector ∧
    sheet.node? id = some (.rule selector (some block)) ∧ sheet.blockOf id = .ok block ∧
    List.Forall₂ (fun x c => ∃ d, Declaration.read x.1 x.2 = .ok d ∧ sheet.node? c = some (.declaration d))
      e.properties.entries (sheet.children block)

/-- What a tier has become: its nodes at the top of the stylesheet, and its rules. -/
inductive TierAt (σ : String) (sheet : Sheet) (bp : String) (states : States) : List Nat → List Nat → Prop
  | bare {ids : List Nat} : ¬ Breakpoint.Bounded bp →
      List.Forall₂ (Entry.RuledAt σ sheet) (entriesOf bp states) ids → TierAt σ sheet bp states ids ids
  | empty : Breakpoint.Bounded bp → entriesOf bp states = [] → TierAt σ sheet bp states [] []
  | media {id block : Nat} {query params : String} : Breakpoint.Bounded bp → entriesOf bp states ≠ [] →
      Breakpoint.queryOfKey? bp = some query → readParams query = .ok params →
      sheet.node? id = some (.atRule "media" params (some block)) → sheet.blockOf id = .ok block →
      List.Forall₂ (Entry.RuledAt σ sheet) (entriesOf bp states) (sheet.children block) →
      TierAt σ sheet bp states [id] (sheet.children block)

/-- The stylesheet says what the style does, under a selector that has been read. -/
structure Projects (s : Style) (σ : String) (sheet : Sheet) : Prop where
  /-- The rules are the addresses with properties, in order. -/
  rules : ∃ ids, sheet.rules = .ok ids ∧ List.Forall₂ (Entry.RuledAt σ sheet) s.entries ids
  /-- The top of the stylesheet, and its rules once more, tier by tier. -/
  tiers : ∃ tiers : List (List Nat × List Nat),
    List.Forall₂ (fun tier ids => TierAt σ sheet tier.1 tier.2 ids.1 ids.2) s.layers.entries tiers ∧
      sheet.children Sheet.root = tiers.flatMap Prod.fst ∧ sheet.rules = .ok (tiers.flatMap Prod.snd)
  /-- No rule is empty, and no `@media` rule. -/
  filled : ∀ id block, sheet.blockOf id = .ok block → sheet.children block ≠ []

/-! ## Each entry has its rule -/

variable {σ : String} {sheet : Sheet}

theorem declared_of_readAs {es : List (String × String)} {ds : List Declaration} (h : ReadAs es ds)
    {next : Nat} (hshows : ∀ t ∈ declarationTrees next ds, sheet.Shows t) :
    List.Forall₂ (fun x c => ∃ d, Declaration.read x.1 x.2 = .ok d ∧ sheet.node? c = some (.declaration d))
      es ((declarationTrees next ds).map Tree.id) := by
  induction h generalizing next with
  | nil => exact .nil
  | cons hread _ ih =>
      obtain ⟨hd, hshows⟩ := List.forall_mem_cons.1 hshows
      exact .cons ⟨_, hread, hd.node?_eq⟩ (ih hshows)

theorem Entry.Writes.ruledAt {e : Entry} {r : Ruled} (h : e.Writes σ r) (hr : sheet.Shows r.tree) :
    e.RuledAt σ sheet r.id := by
  obtain ⟨hids, hchildren⟩ := hr.children_rule
  refine ⟨r.selector, r.id + 1, h.selector, hr.node?_eq, hr.blockOf_rule, ?_⟩
  rw [hids]
  exact declared_of_readAs h.body hchildren

theorem ruledAt_of_writes {es : List Entry} {rs : List Ruled} (h : List.Forall₂ (Entry.Writes σ) es rs)
    (hrs : ∀ r ∈ rs, sheet.Shows r.tree) :
    List.Forall₂ (Entry.RuledAt σ sheet) es (rs.map Ruled.id) := by
  induction h with
  | nil => exact .nil
  | cons hwrites _ ih =>
      obtain ⟨hr, hrs⟩ := List.forall_mem_cons.1 hrs
      exact .cons (hwrites.ruledAt hr) (ih hrs)

theorem id_itemRuled_rules {es : List (String × Properties)} {rules : List Item} (h : RulesOf σ es rules)
    (m : Option String) (next : Nat) :
    (itemRuled m next rules).map Ruled.id = (itemTrees next rules).map Tree.id := by
  induction h generalizing next with
  | nil => simp [itemRuled, itemTrees]
  | cons hrule _ ih =>
      obtain ⟨selector, body, rfl, _⟩ := ruleOf_eq_ok.1 hrule
      simp [itemRuled, itemTrees, Item.ruled, Item.mediaAfter, Item.id_tree, ih]

theorem ruledAt_rules {es : List (String × Properties)} {rules : List Item} (h : RulesOf σ es rules)
    (bp : String) {next : Nat} (hshows : ∀ t ∈ itemTrees next rules, sheet.Shows t) :
    List.Forall₂ (Entry.RuledAt σ sheet) (es.map fun e => ⟨bp, e.1, e.2⟩)
      ((itemTrees next rules).map Tree.id) := by
  have hwrites : List.Forall₂ (Entry.Writes σ) (es.map fun e => ⟨bp, e.1, e.2⟩) _ := (writes_rules rfl h next).1
  rw [← id_itemRuled_rules h]
  exact ruledAt_of_writes hwrites (shows_itemRuled _ next rules hshows)

/-- What is written for a tier stands where it belongs. -/
theorem tierAt_of_itemsOf {bp : String} {states : States} {items : List Item}
    (h : itemsOf σ bp states = .ok items) {next : Nat} (hshows : ∀ t ∈ itemTrees next items, sheet.Shows t) :
    TierAt σ sheet bp states ((itemTrees next items).map Tree.id)
      ((itemRuled none next items).map Ruled.id) := by
  obtain ⟨rules, hrules, hitems⟩ := itemsOf_eq_ok.1 h
  have hentries : entriesOf bp states = [] ↔ rules = [] := by
    rw [entriesOf, List.map_eq_nil_iff, ← List.length_eq_zero_iff, hrules.length_eq, List.length_eq_zero_iff]
  split at hitems
  next hm =>
      subst hitems
      rw [id_itemRuled_rules hrules]
      exact .bare (Breakpoint.params?_eq_none_iff.1 hm) (ruledAt_rules hrules bp hshows)
  next params hm =>
      obtain ⟨b, hb, hparams⟩ := Option.bind_eq_some_iff.1 hm
      obtain ⟨query, hquery, hread⟩ := Breakpoint.exists_query hparams
      have hbounded : Breakpoint.Bounded bp := by
        by_contra hnot
        rw [Breakpoint.params?_eq_none_iff.2 hnot] at hm
        cases hm
      by_cases hempty : rules = []
      · simp only [hempty, List.isEmpty_nil, ↓reduceIte] at hitems
        simpa [hitems, itemTrees, itemRuled] using TierAt.empty hbounded (hentries.2 hempty)
      · rw [if_neg (by simpa using hempty)] at hitems
        subst hitems
        have howning : sheet.Shows (.owning next (.atRule "media" params) (itemTrees (next + 2) rules)) := by
          simpa [itemTrees, Item.tree] using hshows
        obtain ⟨hids, hchildren⟩ := howning.children_owning
        have hruled := ruledAt_rules hrules bp hchildren
        rw [← hids] at hruled
        have hmedia : TierAt σ sheet bp states [next] (sheet.children (next + 1)) :=
          .media hbounded (fun hnil => hempty (hentries.1 hnil)) (Option.bind_eq_some_iff.2 ⟨b, hb, hquery⟩)
            hread howning.node?_eq howning.blockOf_owning hruled
        simpa [itemTrees, itemRuled, Item.ruled, isMedia_media, Item.id_tree, id_itemRuled_rules hrules, hids]
          using hmedia

theorem exists_tiers {es : List (String × States)} {tiers : List (List Item)}
    (h : List.Forall₂ (fun e tier => itemsOf σ e.1 e.2 = .ok tier) es tiers) {next : Nat}
    (hshows : ∀ t ∈ itemTrees next tiers.flatten, sheet.Shows t) : ∃ ids : List (List Nat × List Nat),
      List.Forall₂ (fun tier ids => TierAt σ sheet tier.1 tier.2 ids.1 ids.2) es ids ∧
        (itemTrees next tiers.flatten).map Tree.id = ids.flatMap Prod.fst ∧
          (itemRuled none next tiers.flatten).map Ruled.id = ids.flatMap Prod.snd := by
  induction h generalizing next with
  | nil => exact ⟨[], .nil, by simp [itemTrees], by simp [itemRuled]⟩
  | cons htier _ ih =>
      rw [List.flatten_cons, itemTrees_append] at hshows
      obtain ⟨hfirst, hrest⟩ := List.forall_mem_append.1 hshows
      obtain ⟨ids, hids, htops, hrules⟩ := ih hrest
      refine ⟨(_, _) :: ids, .cons (tierAt_of_itemsOf htier hfirst) hids, ?_, ?_⟩
      · rw [List.flatten_cons, itemTrees_append, List.map_append, htops]
        rfl
      · rw [List.flatten_cons, itemRuled_append, (writes_itemsOf htier next).2, List.map_append, hrules]
        rfl

/-! ## Nothing is empty -/

theorem filled_rules {es : List (String × Properties)} {rules : List Item} (h : RulesOf σ es rules)
    (hes : ∀ e ∈ es, e.2.isEmpty = false) : ItemsFilled rules := by
  rw [itemsFilled_iff]
  intro item hitem
  obtain ⟨e, he, hrule⟩ := exists_of_mem_right h hitem
  obtain ⟨selector, body, rfl, _, hbody⟩ := ruleOf_eq_ok.1 hrule
  rw [Item.Filled]
  rintro rfl
  have hnil : e.2.entries = [] := List.forall₂_nil_right_iff.1 hbody
  have hne := hes e he
  simp [OrderedMap.isEmpty, hnil] at hne

theorem filled_itemsOf {bp : String} {states : States} {items : List Item}
    (h : itemsOf σ bp states = .ok items) : ItemsFilled items := by
  obtain ⟨rules, hrules, hitems⟩ := itemsOf_eq_ok.1 h
  have hfilled : ItemsFilled rules := filled_rules hrules fun e he => by simpa using (List.mem_filter.1 he).2
  split at hitems
  · exact hitems ▸ hfilled
  · subst hitems
    split
    next => trivial
    next hne =>
      rw [itemsFilled_iff]
      simpa [Item.Filled] using ⟨by simpa using hne, hfilled⟩

theorem filled_toItems {s : Style} {selector : String} {items : List Item}
    (h : s.toItems selector = .ok items) : ItemsFilled items := by
  obtain ⟨σ, tiers, _, htiers, rfl⟩ := toItems_eq_ok.1 h
  rw [itemsFilled_iff]
  intro item hitem
  obtain ⟨tier, htier, hitem⟩ := List.mem_flatten.1 hitem
  obtain ⟨e, _, htier⟩ := exists_of_mem_right htiers htier
  exact itemsFilled_iff.1 (filled_itemsOf htier) item hitem

theorem projects_toItems {s : Style} {selector : String} {items : List Item}
    (h : s.toItems selector = .ok items) :
    ∃ σ, readSelector selector = .ok σ ∧ s.Projects σ (.ofItems items) := by
  have hfilled := filled_toItems h
  obtain ⟨σ, hσ, hwrites⟩ := writes_toItems h
  obtain ⟨σ', tiers, hσ', htiers, rfl⟩ := toItems_eq_ok.1 h
  cases hσ.symm.trans hσ'
  have hrules := Sheet.rules_ofItems tiers.flatten
  have hall := (Sheet.ofItems tiers.flatten).shows_tree
  rw [tree_ofItems] at hall
  cases hall with
  | mk _ _ hchildren _ hshows =>
      obtain ⟨ids, hids, htops, hbelow⟩ := exists_tiers htiers hshows
      refine ⟨σ, hσ, ⟨_, hrules, ruledAt_of_writes hwrites shows_ruled_ofItems⟩, ⟨ids, hids, ?_, ?_⟩, ?_⟩
      · exact hchildren.trans htops
      · rw [hrules, hbelow]
      · exact fun id block hblock => Sheet.children_ne_nil_of_filled hfilled hblock

/-! ## When a style is projected -/

theorem Entry.accepted_iff {e : Entry} : e.Accepted σ ↔ ∃ item, ruleOf σ e.state e.properties = .ok item := by
  simp only [ruleOf_eq_ok]
  constructor
  · intro h
    obtain ⟨selector, hselector⟩ := h.selector
    have hread : ∃ ds, ReadAs e.properties.entries ds := by
      apply exists_forall₂
      intro x hx
      obtain ⟨⟨p, hp⟩, v, hv⟩ := h.properties x hx
      exact ⟨⟨p, v⟩, Declaration.read_eq_ok.2 ⟨hp, hv⟩⟩
    obtain ⟨ds, hds⟩ := hread
    exact ⟨_, selector, ds, rfl, hselector, hds⟩
  · rintro ⟨_, selector, ds, rfl, hselector, hds⟩
    refine ⟨⟨selector, hselector⟩, fun x hx => ?_⟩
    obtain ⟨d, _, hd⟩ := exists_of_mem_right hds.flip hx
    obtain ⟨hproperty, hvalue⟩ := Declaration.read_eq_ok.1 hd
    exact ⟨⟨_, hproperty⟩, _, hvalue⟩

theorem exists_toSheet_iff {s : Style} {selector : String} : (∃ sheet, s.toSheet selector = .ok sheet) ↔
    ∃ σ, readSelector selector = .ok σ ∧ ∀ e ∈ s.entries, e.Accepted σ := by
  simp only [toSheet_eq_ok, Entry.accepted_iff]
  constructor
  · rintro ⟨_, items, h, rfl⟩
    obtain ⟨σ, hσ, hwrites⟩ := writes_toItems h
    refine ⟨σ, hσ, fun e he => ?_⟩
    obtain ⟨r, _, hr⟩ := exists_of_mem_right hwrites.flip he
    exact ⟨_, ruleOf_eq_ok.2 ⟨r.selector, r.body, rfl, hr.selector, hr.body⟩⟩
  · rintro ⟨σ, hσ, h⟩
    obtain ⟨items, hitems⟩ := exists_toItems hσ h
    exact ⟨_, items, hitems, rfl⟩

/-- A style is projected if and only if the selector and the texts at each address with properties can be read.
Made node by node, the stylesheet is the same, and what fails is a reading; then it says what the style does. -/
theorem toSheet_exact (s : Style) (selector : String) :
    ((∃ sheet, s.toSheet selector = .ok sheet) ↔
      ∃ σ, readSelector selector = .ok σ ∧ ∀ e ∈ s.entries, e.Accepted σ) ∧
    s.assemble selector = reading (s.toSheet selector) ∧
    ∀ sheet, s.toSheet selector = .ok sheet → ∃ σ, readSelector selector = .ok σ ∧ s.Projects σ sheet := by
  refine ⟨exists_toSheet_iff, s.assemble_eq selector, fun sheet h => ?_⟩
  obtain ⟨items, hitems, rfl⟩ := toSheet_eq_ok.1 h
  exact projects_toItems hitems

/-- A tier without properties leaves nothing, and a key that names no tier has its rules outside `@media`. -/
theorem toSheet_exact_media : ∃ s : Style, ∃ sheet, s.entries.length = 2 ∧ s.layers.size = 3 ∧
    s.toSheet ".a > b" = .ok sheet ∧ s.assemble ".a > b" = .ok sheet ∧
      ∃ σ, readSelector ".a > b" = .ok σ ∧ s.Projects σ sheet := by
  let s := ((Style.ofLayout "" "" ⟨["xl", "md", "print"], ["default", "hover"]⟩).set
    "md" "hover" "color" "red ! important").set "print" "focus" "margin" "0"
  have h : s.toSheet ".a > b" = .ok (.ofItems [.group "media" "(max-width:992px)"
      [.rule ".a>b:hover" [⟨"color", ⟨"red", true⟩⟩]], .rule ".a>b:focus" [⟨"margin", ⟨"0", false⟩⟩]]) := by
    decide +kernel
  obtain ⟨_, hassemble, hprojects⟩ := toSheet_exact s ".a > b"
  exact ⟨s, _, by decide +kernel, by decide +kernel, h, hassemble.trans (by rw [h]; rfl), hprojects _ h⟩

end Style
end TieredStyle
