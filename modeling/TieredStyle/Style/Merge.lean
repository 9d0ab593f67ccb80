import TieredStyle.Style

/-! Merging styles: a later style overrides an earlier one, property by property. -/
namespace TieredStyle

/-- Which addresses a merged style has. -/
inductive Merging
  /-- The four states in each of the given tiers; what lies elsewhere is passed over. -/
  | canonical (breakpoints : List String)
  /-- Every state that some style has, in every tier that some style has. -/
  | union
deriving DecidableEq

namespace Style

/-- The properties of a style put over what the layers hold at its addresses. -/
def overlay (layers : Layers) (s : Style) : Layers :=
  s.layers.entries.foldl (fun layers (bp, states) =>
    states.entries.foldl (fun layers (ps, properties) =>
      overlayAt layers bp ps properties.entries) layers) layers

/-- The tiers of some styles and the states in any of these, repetitions included. -/
def unionLayout (styles : List Style) : Layout where
  breakpoints := styles.flatMap (·.layers.keys)
  states := styles.flatMap fun s => s.layers.values.flatMap (·.keys)

/-- The style that a merge starts with. -/
def mergeBase (styles : List Style) : Merging → Style
  | .canonical breakpoints =>
    ofLayout "computed" "Computed Styles" ⟨breakpoints, PseudoState.all.map (·.key)⟩
  | .union => ofLayout "merged" "Merged Styles" (unionLayout styles)

/-- Each property stands where the first style to set it put it, with the value of the last. -/
def merge (mode : Merging) (styles : List Style) : Style :=
  let base := mergeBase styles mode
  { base with layers := styles.foldl overlay base.layers }

end Style
end TieredStyle
