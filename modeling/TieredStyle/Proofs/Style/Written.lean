import TieredStyle.Proofs.Style.Layers
import TieredStyle.Proofs.Style.Projected
import TieredStyle.Proofs.Tree.Ruled

/-!
# What a style is written as

The rules of a projected stylesheet stand for the addresses with properties, in order, each under the
media of its tier.
-/
namespace TieredStyle.Style
open TieredStyle.Css

/-- The rule for the properties at an address, under a normalized selector. -/
structure Entry.Writes (σ : String) (e : Entry) (r : Ruled) : Prop where
  media : r.media = (Breakpoint.ofKey? e.breakpoint).bind Breakpoint.params?
  selector : readSelector (PseudoState.select σ e.state) = .ok r.selector
  body : ReadAs e.properties.entries r.body

theorem itemRuled_append (m : Option String) (next : Nat) (items items' : List Item) :
    itemRuled m next (items ++ items') =
      itemRuled m next items ++ itemRuled (mediaAfterAll m items) (next + itemCount items) items' := by
  induction items generalizing m next with
  | nil => simp [itemRuled, mediaAfterAll, itemCount]
  | cons item items ih =>
      rw [List.cons_append, itemRuled, itemRuled, mediaAfterAll, itemCount, ih, List.append_assoc,
        Nat.add_assoc]

theorem mediaAfterAll_append (m : Option String) (items items' : List Item) :
    mediaAfterAll m (items ++ items') = mediaAfterAll (mediaAfterAll m items) items' := by
  induction items generalizing m with
  | nil => rw [List.nil_append, mediaAfterAll]
  | cons item items ih => rw [List.cons_append, mediaAfterAll, mediaAfterAll, ih]

/-- Rules for the states of a tier write its entries, and they leave the media as it is. -/
theorem writes_rules {σ bp : String} {es : List (String × Properties)} {rules : List Item}
    {m : Option String} (hm : m = (Breakpoint.ofKey? bp).bind Breakpoint.params?)
    (h : RulesOf σ es rules) (next : Nat) :
    List.Forall₂ (Entry.Writes σ) (es.map fun e => ⟨bp, e.1, e.2⟩) (itemRuled m next rules) ∧
      mediaAfterAll m rules = m := by
  induction h generalizing next with
  | nil =>
      rw [itemRuled, mediaAfterAll]
      exact ⟨.nil, rfl⟩
  | cons hrule _ ih =>
      obtain ⟨selector, body, rfl, hselector, hbody⟩ := ruleOf_eq_ok.1 hrule
      rw [itemRuled, mediaAfterAll, Item.ruled, Item.mediaAfter]
      exact ⟨.cons ⟨hm, hselector, hbody⟩ (ih _).1, (ih 0).2⟩

theorem writes_itemsOf {σ bp : String} {states : States} {items : List Item}
    (h : itemsOf σ bp states = .ok items) (next : Nat) :
    List.Forall₂ (Entry.Writes σ) (entriesOf bp states) (itemRuled none next items) ∧
      mediaAfterAll none items = none := by
  obtain ⟨rules, hrules, hitems⟩ := itemsOf_eq_ok.1 h
  split at hitems
  next hm =>
    rw [hitems]
    exact writes_rules hm.symm hrules next
  next params hm =>
    rw [hitems]
    split
    next hempty =>
      have hnil : rules = [] := List.isEmpty_iff.1 hempty
      have hwrites := (writes_rules hm.symm hrules next).1
      rw [hnil, itemRuled] at hwrites
      rw [itemRuled, mediaAfterAll]
      exact ⟨hwrites, rfl⟩
    next =>
      rw [itemRuled, itemRuled, Item.ruled, List.append_nil, mediaAfterAll, mediaAfterAll,
        Item.mediaAfter, if_pos isMedia_media, if_pos isMedia_media]
      exact ⟨(writes_rules hm.symm hrules (next + 2)).1, rfl⟩

theorem writes_tiers {σ : String} {es : List (String × States)} {tiers : List (List Item)}
    (h : List.Forall₂ (fun e tier => itemsOf σ e.1 e.2 = .ok tier) es tiers) (next : Nat) :
    List.Forall₂ (Entry.Writes σ) (es.flatMap fun e => entriesOf e.1 e.2)
        (itemRuled none next tiers.flatten) ∧
      mediaAfterAll none tiers.flatten = none := by
  induction h generalizing next with
  | nil =>
      rw [List.flatten_nil, itemRuled, mediaAfterAll]
      exact ⟨.nil, rfl⟩
  | cons htier _ ih =>
      obtain ⟨hwrites, hmedia⟩ := writes_itemsOf htier next
      rw [List.flatten_cons, itemRuled_append, mediaAfterAll_append, List.flatMap_cons, hmedia]
      exact ⟨List.rel_append hwrites (ih _).1, (ih 0).2⟩

/-- The rules of a projected stylesheet write the entries of the style. -/
theorem writes_toItems {s : Style} {selector : String} {items : List Item}
    (h : s.toItems selector = .ok items) : ∃ σ, readSelector selector = .ok σ ∧
      List.Forall₂ (Entry.Writes σ) s.entries (itemRuled none 1 items) := by
  obtain ⟨σ, tiers, hσ, htiers, rfl⟩ := toItems_eq_ok.1 h
  exact ⟨σ, hσ, (writes_tiers htiers 1).1⟩

/-! ## Writing succeeds -/

theorem exists_itemsOf {σ bp : String} {states : States}
    (h : ∀ e ∈ states.entries, e.2.isEmpty = false → ∃ item, ruleOf σ e.1 e.2 = .ok item) :
    ∃ items, itemsOf σ bp states = .ok items := by
  have hrules : ∃ rules, RulesOf σ (states.entries.filter (!·.2.isEmpty)) rules := by
    refine exists_forall₂ fun e he => ?_
    obtain ⟨hmem, hne⟩ := List.mem_filter.1 he
    exact h e hmem (by simpa using hne)
  obtain ⟨rules, hrules⟩ := hrules
  cases hm : (Breakpoint.ofKey? bp).bind Breakpoint.params? with
  | none => exact ⟨rules, itemsOf_eq_ok.2 ⟨rules, hrules, by rw [hm]⟩⟩
  | some params =>
      exact ⟨if rules.isEmpty then [] else [.group "media" params rules],
        itemsOf_eq_ok.2 ⟨rules, hrules, by rw [hm]⟩⟩

/-- A style is written if each of its entries is. -/
theorem exists_toItems {s : Style} {selector σ : String} (hσ : readSelector selector = .ok σ)
    (h : ∀ e ∈ s.entries, ∃ item, ruleOf σ e.state e.properties = .ok item) :
    ∃ items, s.toItems selector = .ok items := by
  have htiers : ∃ tiers, List.Forall₂ (fun e tier => itemsOf σ e.1 e.2 = .ok tier)
      s.layers.entries tiers := by
    refine exists_forall₂ fun tier htier => exists_itemsOf fun e he hne => ?_
    refine h ⟨tier.1, e.1, e.2⟩ (List.mem_flatMap.2 ⟨tier, htier, List.mem_map.2 ⟨e, ?_, rfl⟩⟩)
    exact List.mem_filter.2 ⟨he, by simpa using hne⟩
  obtain ⟨tiers, htiers⟩ := htiers
  exact ⟨tiers.flatten, toItems_eq_ok.2 ⟨σ, tiers, hσ, htiers, rfl⟩⟩

end TieredStyle.Style
