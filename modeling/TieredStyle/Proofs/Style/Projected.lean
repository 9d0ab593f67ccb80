import TieredStyle.Proofs.Outcome
import TieredStyle.Style.Projection

/-!
# Projected entries

A style is written as rules, those of a tier with a bound inside `@media`. The queries of the tiers are
fixed, and so are their normalized parameters.
-/
namespace TieredStyle
open TieredStyle.Css

theorem Css.isMedia_media : isMedia "media" = true := by decide

theorem Css.holdsItems_media : holdsItems "media" = true := by decide

namespace Breakpoint

/-- The media query of a tier as it is written, normalized. -/
def params? (b : Breakpoint) : Option String :=
  b.maxWidth?.map fun w => "(max-width:" ++ toString w ++ "px)"

theorem readParams_mediaQuery? {b : Breakpoint} {query : String} (h : b.mediaQuery? = some query) :
    ∃ params, b.params? = some params ∧ readParams query = .ok params := by
  cases b
  case base => cases h
  all_goals
    cases h
    exact ⟨_, rfl, by decide +kernel⟩

theorem params?_of_mediaQuery? {b : Breakpoint} (h : b.mediaQuery? = none) : b.params? = none := by
  simpa [mediaQuery?, params?] using h

theorem ofMedia_params {b : Breakpoint} {params : String} (h : b.params? = some params) :
    ofMedia params = b := by
  cases b
  case base => cases h
  all_goals
    cases h
    decide

theorem ofKey?_key (b : Breakpoint) : ofKey? b.key = some b := by cases b <;> rfl

theorem key_ofKey? {k : String} {b : Breakpoint} (h : ofKey? k = some b) : b.key = k := by
  simpa using List.find?_some h

end Breakpoint

theorem Css.Declaration.read_eq_ok {property value : String} {d : Declaration} :
    read property value = .ok d ↔
      readProperty property = .ok d.property ∧ readValue value = .ok d.value := by
  obtain ⟨p, v⟩ := d
  simp only [read, bind_eq_ok]
  constructor
  · rintro ⟨p', hp, v', hv, h⟩
    cases h
    exact ⟨hp, hv⟩
  · rintro ⟨hp, hv⟩
    exact ⟨p, hp, v, hv, rfl⟩

namespace Style

/-- The declarations as which some properties with their values are read. -/
abbrev ReadAs (es : List (String × String)) (ds : List Declaration) : Prop :=
  List.Forall₂ (fun e d => Declaration.read e.1 e.2 = .ok d) es ds

/-- The rule for a state, if it reads. -/
theorem ruleOf_eq_ok {selector ps : String} {properties : Properties} {item : Item} :
    ruleOf selector ps properties = .ok item ↔ ∃ σ ds, item = .rule σ ds ∧
      readSelector (PseudoState.select selector ps) = .ok σ ∧
      ReadAs properties.entries ds := by
  simp only [ruleOf, bind_eq_ok, mapM_eq_ok]
  constructor
  · rintro ⟨σ, hσ, ds, hds, h⟩
    cases h
    exact ⟨σ, ds, rfl, hσ, hds⟩
  · rintro ⟨σ, ds, rfl, hσ, hds⟩
    exact ⟨σ, hσ, ds, hds, rfl⟩

/-- The rules for some states of a tier. -/
abbrev RulesOf (selector : String) (es : List (String × Properties)) (rules : List Item) : Prop :=
  List.Forall₂ (fun e rule => ruleOf selector e.1 e.2 = .ok rule) es rules

/-- The entries of a tier are its rules, inside `@media` if the tier has a bound. -/
theorem itemsOf_eq_ok {selector bp : String} {states : States} {items : List Item} :
    itemsOf selector bp states = .ok items ↔
      ∃ rules, RulesOf selector (states.entries.filter (!·.2.isEmpty)) rules ∧
      match (Breakpoint.ofKey? bp).bind Breakpoint.params? with
      | none => items = rules
      | some params => items = if rules.isEmpty then [] else [.group "media" params rules] := by
  simp only [itemsOf, bind_eq_ok, mapM_eq_ok, Breakpoint.queryOfKey?]
  refine exists_congr fun rules => and_congr_right fun _ => ?_
  cases hb : Breakpoint.ofKey? bp with
  | none =>
      simp only [Option.bind_none]
      exact ⟨fun h => by cases h; rfl, fun h => by rw [h]; rfl⟩
  | some b =>
      simp only [Option.bind_some]
      cases hq : b.mediaQuery? with
      | none =>
          rw [Breakpoint.params?_of_mediaQuery? hq]
          exact ⟨fun h => by cases h; rfl, fun h => by rw [h]; rfl⟩
      | some query =>
          obtain ⟨params, hp, hread⟩ := Breakpoint.readParams_mediaQuery? hq
          simp only [hp]
          split
          · exact ⟨fun h => by cases h; rfl, fun h => by rw [h]; rfl⟩
          · rw [hread]
            exact ⟨fun h => by cases h; rfl, fun h => by rw [h]; rfl⟩

/-- What a style is written as. -/
theorem toItems_eq_ok {s : Style} {selector : String} {items : List Item} :
    s.toItems selector = .ok items ↔ ∃ σ tiers, readSelector selector = .ok σ ∧
      List.Forall₂ (fun e tier => itemsOf σ e.1 e.2 = .ok tier) s.layers.entries tiers ∧
      items = tiers.flatten := by
  simp only [toItems, bind_eq_ok, mapM_eq_ok]
  constructor
  · rintro ⟨σ, hσ, tiers, htiers, h⟩
    cases h
    exact ⟨σ, tiers, hσ, htiers, rfl⟩
  · rintro ⟨σ, tiers, hσ, htiers, rfl⟩
    exact ⟨σ, hσ, tiers, htiers, rfl⟩

theorem toSheet_eq_ok {s : Style} {selector : String} {sheet : Sheet} :
    s.toSheet selector = .ok sheet ↔
      ∃ items, s.toItems selector = .ok items ∧ sheet = .ofItems items := by
  simp only [toSheet, bind_eq_ok]
  exact exists_congr fun items => and_congr_right fun _ =>
    ⟨fun h => by cases h; rfl, fun h => by rw [h]; rfl⟩

end Style
end TieredStyle
