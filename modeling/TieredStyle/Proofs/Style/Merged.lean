import TieredStyle.Proofs.Style.Layers

/-!
# Addresses of merged styles

Merging puts properties over addresses that are there already, so a merged style has the tiers and states
that it started with.
-/
namespace TieredStyle

/-- The four states in every tier, in the order of the tiers. -/
def Merging.standard : Merging := .canonical (Breakpoint.all.map (·.key))

namespace Style

/-- The tiers with the states of each, in order. -/
def shape (layers : Layers) : List (String × List String) :=
  layers.entries.map fun e => (e.1, e.2.keys)

theorem shape_modify {f : States → States} (hf : ∀ states, (f states).keys = states.keys)
    (layers : Layers) (bp : String) : shape (layers.modify bp f) = shape layers := by
  rw [shape, OrderedMap.modify, List.map_map]
  refine List.map_congr_left fun e _ => ?_
  simp only [Function.comp_apply]
  split
  · exact congrArg (Prod.mk e.1) (hf e.2)
  · rfl

theorem shape_overlayAt (layers : Layers) (bp ps : String) (es : List (String × String)) :
    shape (overlayAt layers bp ps es) = shape layers :=
  shape_modify (fun states => states.keys_modify ps _) layers bp

theorem shape_overlay (layers : Layers) (s : Style) : shape (overlay layers s) = shape layers := by
  refine List.foldlRecOn (motive := fun layers' => shape layers' = shape layers) _ _ rfl ?_
  intro layers' h tier _
  refine List.foldlRecOn (motive := fun layers' => shape layers' = shape layers) _ _ h ?_
  intro layers' h e _
  exact (shape_overlayAt layers' tier.1 e.1 e.2.entries).trans h

theorem shape_merge (mode : Merging) (styles : List Style) :
    shape (merge mode styles).layers = shape (mergeBase styles mode).layers := by
  refine List.foldlRecOn (motive := fun layers' => shape layers' = shape (mergeBase styles mode).layers)
    _ _ rfl ?_
  intro layers' h s _
  exact (shape_overlay layers' s).trans h

theorem keys_eq_of_shape {layers : Layers} {sh : List (String × List String)}
    (h : shape layers = sh) : layers.keys = sh.map Prod.fst := by
  rw [← h, shape, List.map_map]
  rfl

theorem keys_of_shape {layers layers' : Layers} (h : shape layers = shape layers') {bp : String}
    {states states' : States} (hs : layers.get? bp = some states) (hs' : layers'.get? bp = some states') :
    states.keys = states'.keys := by
  have hmem : (bp, states.keys) ∈ shape layers' := by
    rw [← h]
    exact List.mem_map_of_mem (OrderedMap.get?_eq_some_iff.1 hs)
  have hmem' : (bp, states'.keys) ∈ shape layers' :=
    List.mem_map_of_mem (OrderedMap.get?_eq_some_iff.1 hs')
  have hnodup : ((shape layers').map Prod.fst).Nodup := by
    rw [← keys_eq_of_shape rfl]
    exact layers'.nodup_keys
  exact (Prod.mk.inj (List.inj_on_of_nodup_map hnodup hmem hmem' rfl)).2

theorem shape_merge_standard (styles : List Style) : shape (merge .standard styles).layers =
    Breakpoint.all.map fun b => (b.key, PseudoState.all.map (·.key)) := by
  have hlayout : shape Layout.standard.layers =
      Breakpoint.all.map fun b => (b.key, PseudoState.all.map (·.key)) := by
    decide
  rw [shape_merge, ← hlayout]
  rfl

theorem exists_keys_of_shape {layers : Layers}
    (h : shape layers = Breakpoint.all.map fun b => (b.key, PseudoState.all.map (·.key)))
    {bp ps : String} {properties : Properties} (hat : at? layers bp ps = some properties) :
    (∃ b : Breakpoint, b.key = bp) ∧ ∃ p : PseudoState, p.key = ps := by
  obtain ⟨states, hstates, hproperties⟩ := Option.bind_eq_some_iff.1 hat
  have hmem : (bp, states.keys) ∈ shape layers :=
    List.mem_map_of_mem (OrderedMap.get?_eq_some_iff.1 hstates)
  rw [h] at hmem
  obtain ⟨b, _, heq⟩ := List.mem_map.1 hmem
  obtain ⟨hb, hkeys⟩ := Prod.mk.inj heq
  have hps : ps ∈ states.keys := List.mem_map_of_mem (OrderedMap.get?_eq_some_iff.1 hproperties)
  rw [← hkeys] at hps
  obtain ⟨p, _, hp⟩ := List.mem_map.1 hps
  exact ⟨⟨b, hb⟩, p, hp⟩

end Style
end TieredStyle
