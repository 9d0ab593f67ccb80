import TieredStyle.Proofs.Style.Combined

/-!
# Merging in stages

A merged style stands for the styles that it was made of: merging two parts of a list and then the two
results comes to merging the whole list.
-/
namespace TieredStyle

namespace Style

/-! ## Layers that look the same -/

/-- Layers are told by their addresses and by what is looked up there. -/
theorem layers_ext {layers layers' : Layers} (hshape : shape layers = shape layers')
    (hat : ∀ bp ps, (at? layers bp ps).getD ∅ = (at? layers' bp ps).getD ∅) : layers = layers' := by
  have hkeys : layers.keys = layers'.keys :=
    (keys_eq_of_shape hshape).trans (keys_eq_of_shape rfl).symm
  refine OrderedMap.eq_of_keys hkeys fun bp states states' hs hs' => ?_
  refine OrderedMap.eq_of_keys (keys_of_shape hshape hs hs') fun ps properties properties' hp hp' => ?_
  have h := hat bp ps
  rwa [at?, at?, hs, hs', Option.bind_some, Option.bind_some, hp, hp'] at h

/-! ## The layout of merged styles -/

theorem values_keys (layers : Layers) :
    layers.values.flatMap (·.keys) = (shape layers).flatMap Prod.snd := by
  rw [OrderedMap.values, shape, List.flatMap_map, List.flatMap_map]

/-- Each tier of a merged style has all the states. -/
theorem eraseDups_states_merge (styles : List Style) :
    ((merge .union styles).layers.values.flatMap (·.keys)).eraseDups =
      (unionLayout styles).states.eraseDups := by
  rw [values_keys, shape_merge_layout, List.flatMap_map]
  simp only [Merging.layout]
  cases hbreakpoints : (unionLayout styles).breakpoints.eraseDups with
  | nil =>
      -- without a tier there is no state either
      have hnil : (unionLayout styles).states = [] := by
        refine List.flatMap_eq_nil_iff.2 fun s hs => ?_
        have hkeys : s.layers.keys = [] := by
          refine List.eq_nil_iff_forall_not_mem.2 fun bp hbp => ?_
          have hmem : bp ∈ (unionLayout styles).breakpoints := List.mem_flatMap.2 ⟨s, hs, hbp⟩
          rw [← List.mem_eraseDups, hbreakpoints] at hmem
          cases hmem
        rw [OrderedMap.values, List.map_eq_nil_iff.1 hkeys]
        rfl
      rw [hnil]
      rfl
  | cons bp bps =>
      rw [List.flatMap_cons, eraseDups_append_of_subset, eraseDups_eraseDups]
      intro ps hps
      obtain ⟨_, _, hps⟩ := List.mem_flatMap.1 hps
      exact hps

theorem layout_staged (mode : Merging) (xs ys : List Style) :
    (mode.layout [merge mode xs, merge mode ys]).breakpoints.eraseDups =
        (mode.layout (xs ++ ys)).breakpoints.eraseDups ∧
      (mode.layout [merge mode xs, merge mode ys]).states.eraseDups =
        (mode.layout (xs ++ ys)).states.eraseDups := by
  cases mode with
  | canonical breakpoints => exact ⟨rfl, rfl⟩
  | union =>
      simp only [Merging.layout, unionLayout, List.flatMap_append, List.flatMap_cons, List.flatMap_nil,
        List.append_nil]
      constructor
      · rw [keys_merge, keys_merge]
        exact eraseDups_append_eraseDups _ _
      · exact eraseDups_append_congr (eraseDups_states_merge xs) (eraseDups_states_merge ys)

/-! ## The properties of merged styles -/

theorem lookup_staged (mode : Merging) (xs ys : List Style) (bp ps : String) :
    (merge mode [merge mode xs, merge mode ys]).lookup bp ps = (merge mode (xs ++ ys)).lookup bp ps := by
  rw [lookup_merge, lookup_merge]
  split
  next hadmits =>
    rw [List.flatMap_cons, List.flatMap_singleton, lookup_merge, lookup_merge, if_pos hadmits,
      if_pos hadmits, OrderedMap.ofList_append, List.flatMap_append]
  next => rfl

/-- Styles may be merged in two stages. -/
theorem merge_append (mode : Merging) (xs ys : List Style) :
    merge mode (xs ++ ys) = merge mode [merge mode xs, merge mode ys] := by
  have hlayers : (merge mode (xs ++ ys)).layers = (merge mode [merge mode xs, merge mode ys]).layers := by
    obtain ⟨hbreakpoints, hstates⟩ := layout_staged mode xs ys
    refine layers_ext ?_ fun bp ps => (lookup_staged mode xs ys bp ps).symm
    rw [shape_merge_layout, shape_merge_layout, hbreakpoints, hstates]
  have hnamed : ∀ styles, merge mode styles =
      { mergeBase [] mode with layers := (merge mode styles).layers } := by
    intro styles
    cases mode <;> rfl
  calc merge mode (xs ++ ys)
    _ = { mergeBase [] mode with layers := (merge mode (xs ++ ys)).layers } := hnamed _
    _ = { mergeBase [] mode with layers := (merge mode [merge mode xs, merge mode ys]).layers } := by
        rw [hlayers]
    _ = merge mode [merge mode xs, merge mode ys] := (hnamed _).symm

end Style
end TieredStyle
