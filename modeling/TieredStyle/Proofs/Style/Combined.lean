import TieredStyle.Proofs.OrderedMap.Inserted
import TieredStyle.Proofs.Style.Merged

/-!
# What a merged style has

A merged style has the addresses of a layout. At each of them stand the properties that the styles have
there, style after style, so that a property comes where it is first set with the value that it is given
last.
-/
namespace TieredStyle

namespace Merging

/-- The addresses of a merged style. -/
def layout (styles : List Style) : Merging → Style.Layout
  | .canonical breakpoints => ⟨breakpoints, PseudoState.all.map (·.key)⟩
  | .union => Style.unionLayout styles

/-- Whether a merge takes up what styles have at an address. -/
def admits : Merging → String → String → Bool
  | .canonical breakpoints, bp, ps => bp ∈ breakpoints ∧ ps ∈ PseudoState.all.map (·.key)
  | .union, _, _ => true

end Merging

namespace Style

/-! ## Overlaying styles -/

theorem overlayAt_nil (layers : Layers) (bp ps : String) : overlayAt layers bp ps [] = layers :=
  OrderedMap.modify_eq_self fun _ _ => OrderedMap.modify_eq_self fun _ _ => rfl

/-- Addresses without properties do not count. -/
theorem overlayAll_entriesOf (layers : Layers) (bp : String) (states : States) :
    overlayAll layers (entriesOf bp states) =
      states.entries.foldl (fun layers e => overlayAt layers bp e.1 e.2.entries) layers := by
  rw [overlayAll, entriesOf, List.foldl_map, List.foldl_filter]
  refine List.foldl_ext _ _ _ fun layers e _ => ?_
  split
  next => rfl
  next hempty =>
    have hempty : e.2.isEmpty = true := by simpa using hempty
    rw [List.isEmpty_iff.1 hempty, overlayAt_nil]

theorem overlay_eq (layers : Layers) (s : Style) : overlay layers s = overlayAll layers s.entries := by
  rw [overlay, overlayAll, entries, List.foldl_flatMap]
  exact List.foldl_ext _ _ _ fun layers tier _ => (overlayAll_entriesOf layers tier.1 tier.2).symm

theorem at?_foldl_overlay (layers : Layers) (styles : List Style) (bp ps : String) :
    at? (styles.foldl overlay layers) bp ps =
      (at? layers bp ps).map (·.insertMany (styles.flatMap fun s => (s.lookup bp ps).entries)) := by
  induction styles generalizing layers with
  | nil => exact Option.map_id'.symm
  | cons s styles ih =>
      rw [List.foldl_cons, ih, overlay_eq, at?_overlayAll, Option.map_map, List.flatMap_cons]
      congr 1
      funext properties
      exact (OrderedMap.insertMany_append ..).symm

/-! ## Layouts -/

theorem at?_layers (l : Layout) (bp ps : String) :
    at? l.layers bp ps = if bp ∈ l.breakpoints ∧ ps ∈ l.states then some ∅ else none := by
  rw [at?, Layout.layers, OrderedMap.get?_tabulate]
  by_cases hb : bp ∈ l.breakpoints
  · rw [if_pos hb, Option.bind_some, OrderedMap.get?_tabulate]
    simp only [hb, true_and]
  · simp [hb]

theorem shape_layers (l : Layout) :
    shape l.layers = l.breakpoints.eraseDups.map fun bp => (bp, l.states.eraseDups) := by
  have hkeys : l.layers.keys = l.breakpoints.eraseDups := OrderedMap.keys_tabulate _ _
  rw [shape, OrderedMap.entries_eq, hkeys, List.map_filterMap, ← List.filterMap_eq_map]
  refine List.filterMap_congr fun bp hbp => ?_
  have hget : l.layers.get? bp = some (.tabulate l.states fun _ => ∅) := by
    rw [Layout.layers, OrderedMap.get?_tabulate, if_pos (List.mem_eraseDups.1 hbp)]
  rw [hget, Option.map_some, Option.map_some, OrderedMap.keys_tabulate]
  rfl

theorem layers_mergeBase (mode : Merging) (styles : List Style) :
    (mergeBase styles mode).layers = (mode.layout styles).layers := by
  cases mode <;> rfl

theorem shape_merge_layout (mode : Merging) (styles : List Style) :
    shape (merge mode styles).layers = (mode.layout styles).breakpoints.eraseDups.map fun bp =>
      (bp, (mode.layout styles).states.eraseDups) := by
  rw [shape_merge, layers_mergeBase, shape_layers]

theorem keys_merge (mode : Merging) (styles : List Style) :
    (merge mode styles).layers.keys = (mode.layout styles).breakpoints.eraseDups := by
  rw [keys_eq_of_shape (shape_merge_layout mode styles), List.map_map]
  exact List.map_id _

theorem keys_of_mem_values_merge {mode : Merging} {styles : List Style} {states : States}
    (h : states ∈ (merge mode styles).layers.values) :
    states.keys = (mode.layout styles).states.eraseDups := by
  obtain ⟨tier, htier, rfl⟩ := List.mem_map.1 h
  have hmem : (tier.1, tier.2.keys) ∈ shape (merge mode styles).layers := List.mem_map_of_mem htier
  rw [shape_merge_layout] at hmem
  obtain ⟨bp, _, hkeys⟩ := List.mem_map.1 hmem
  exact (Prod.mk.inj hkeys).2.symm

/-! ## The properties at an address -/

theorem at?_merge (mode : Merging) (styles : List Style) (bp ps : String) :
    at? (merge mode styles).layers bp ps =
      if bp ∈ (mode.layout styles).breakpoints ∧ ps ∈ (mode.layout styles).states then
        some (.ofList (styles.flatMap fun s => (s.lookup bp ps).entries))
      else none := by
  rw [merge, at?_foldl_overlay, layers_mergeBase, at?_layers]
  split <;> rfl

/-- A style without an address has no properties there. -/
theorem entries_lookup_of_layout {styles : List Style} {s : Style} (hs : s ∈ styles) {bp ps : String}
    (h : ¬(bp ∈ (unionLayout styles).breakpoints ∧ ps ∈ (unionLayout styles).states)) :
    (s.lookup bp ps).entries = [] := by
  rw [lookup_eq]
  cases hat : at? s.layers bp ps with
  | none => rfl
  | some properties =>
      obtain ⟨states, hstates, hproperties⟩ := Option.bind_eq_some_iff.1 hat
      refine absurd ⟨?_, ?_⟩ h
      · exact List.mem_flatMap.2 ⟨s, hs, OrderedMap.mem_keys_iff.2 ⟨states, hstates⟩⟩
      · refine List.mem_flatMap.2 ⟨s, hs, List.mem_flatMap.2 ⟨states, ?_, ?_⟩⟩
        · exact List.mem_map_of_mem (OrderedMap.get?_eq_some_iff.1 hstates)
        · exact OrderedMap.mem_keys_iff.2 ⟨properties, hproperties⟩

/-- At each address that a merge takes up, the properties of all styles are gathered. -/
theorem lookup_merge (mode : Merging) (styles : List Style) (bp ps : String) :
    (merge mode styles).lookup bp ps =
      if mode.admits bp ps then .ofList (styles.flatMap fun s => (s.lookup bp ps).entries) else ∅ := by
  have hlookup := at?_merge mode styles bp ps
  by_cases hmem : bp ∈ (mode.layout styles).breakpoints ∧ ps ∈ (mode.layout styles).states
  · rw [if_pos hmem] at hlookup
    have hadmits : mode.admits bp ps = true := by
      cases mode with
      | canonical breakpoints => exact decide_eq_true hmem
      | union => rfl
    rw [lookup_eq, hlookup, if_pos hadmits, Option.getD_some]
  · rw [if_neg hmem] at hlookup
    rw [lookup_eq, hlookup, Option.getD_none]
    cases mode with
    | canonical breakpoints =>
        refine (if_neg ?_).symm
        rw [Merging.admits, decide_eq_true_eq]
        exact hmem
    | union =>
        have hnil : (styles.flatMap fun s => (s.lookup bp ps).entries) = [] :=
          List.flatMap_eq_nil_iff.2 fun s hs => entries_lookup_of_layout hs hmem
        rw [hnil]
        rfl

theorem keys_gathered (styles : List Style) (bp ps : String) :
    (OrderedMap.ofList (styles.flatMap fun s => (s.lookup bp ps).entries)).keys =
      (styles.flatMap fun s => (s.lookup bp ps).keys).eraseDups := by
  rw [OrderedMap.keys_ofList, List.map_flatMap]
  rfl

/-- The last style with the property counts. -/
theorem get?_gathered (styles : List Style) (bp ps p : String) :
    (OrderedMap.ofList (styles.flatMap fun s => (s.lookup bp ps).entries)).get? p =
      styles.reverse.findSome? fun s => s.get? bp ps p := by
  rw [OrderedMap.get?_ofList, List.reverse_flatMap]
  induction styles.reverse with
  | nil => rfl
  | cons s styles ih =>
      rw [List.flatMap_cons, List.lookup_append, ih, Function.comp_apply,
        OrderedMap.lookup_reverse_entries, List.findSome?_cons, get?]
      cases (s.lookup bp ps).get? p <;> rfl

/-- The tiers and the states of a merged style are those of its layout in the order in which they first
come. At each address that the merge takes up, the properties come in the order in which styles first set
them, each with the value of the last style that sets it, and a union takes up every address. -/
theorem merge_law (mode : Merging) (styles : List Style) :
    (merge mode styles).layers.keys =
        (match mode with
          | .canonical breakpoints => breakpoints
          | .union => styles.flatMap fun s : Style => s.layers.keys).eraseDups ∧
      (∀ states ∈ (merge mode styles).layers.values, states.keys =
        match mode with
          | .canonical _ => PseudoState.all.map (·.key)
          | .union => (styles.flatMap fun s => s.layers.values.flatMap (·.keys)).eraseDups) ∧
      ∀ bp ps,
        if mode.admits bp ps then
          ((merge mode styles).lookup bp ps).keys =
              (styles.flatMap fun s => (s.lookup bp ps).keys).eraseDups ∧
            ∀ p, (merge mode styles).get? bp ps p = styles.reverse.findSome? fun s => s.get? bp ps p
        else (merge mode styles).lookup bp ps = ∅ := by
  refine ⟨?_, ?_, fun bp ps => ?_⟩
  · rw [keys_merge]
    cases mode <;> rfl
  · intro states hstates
    rw [keys_of_mem_values_merge hstates]
    cases mode with
    | canonical breakpoints =>
        have hnodup : (PseudoState.all.map (·.key)).Nodup := by decide
        exact eraseDups_of_nodup hnodup
    | union => rfl
  · have hlookup := lookup_merge mode styles bp ps
    split
    next hadmits =>
      rw [if_pos hadmits] at hlookup
      refine ⟨by rw [hlookup, keys_gathered], fun p => ?_⟩
      rw [get?, hlookup, get?_gathered]
    next hadmits => rw [hlookup, if_neg hadmits]

/-- A style that comes later adds a tier and a state, and it changes a value in place. -/
theorem merge_law_union :
    ∃ styles, styles = [(default : Style).set "default" "default" "color" "red",
        ((default : Style).set "md" "hover" "margin" "0").set "default" "default" "color" "blue"] ∧
      (merge .union styles).layers.keys = ["default", "md"] ∧
      (∃ states ∈ (merge .union styles).layers.values, states.keys = ["default", "hover"]) ∧
      ((merge .union styles).lookup "default" "default").keys = ["color"] ∧
      (merge .union styles).get? "default" "default" "color" = some "blue" := by
  refine ⟨_, rfl, ?_⟩
  obtain ⟨hkeys, hstates, hproperties⟩ := merge_law .union
    [(default : Style).set "default" "default" "color" "red",
      ((default : Style).set "md" "hover" "margin" "0").set "default" "default" "color" "blue"]
  have hat := hproperties "default" "default"
  have hadmits : Merging.union.admits "default" "default" = true := rfl
  rw [if_pos hadmits] at hat
  refine ⟨hkeys.trans (by decide), ⟨_, List.mem_cons_self, ?_⟩,
    hat.1.trans (by decide), (hat.2 "color").trans (by decide)⟩
  exact (hstates _ List.mem_cons_self).trans (by decide)

end Style
end TieredStyle
