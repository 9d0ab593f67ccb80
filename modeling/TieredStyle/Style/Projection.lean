import TieredStyle.Css.Sheet.OfItems
import TieredStyle.Style

/-!
Styles as stylesheets: a rule for each address with properties, in the order of the addresses, and
inside `@media` where the tier has a bound. All texts are read first, so none of them can change
the structure around it.
-/
namespace TieredStyle.Style
open TieredStyle.Css

/-- The rule for the state with key `ps`. -/
def ruleOf (selector ps : String) (properties : Properties) : Except ParseError Item := do
  let selector ← readSelector (PseudoState.select selector ps)
  return .rule selector (← properties.entries.mapM fun (p, v) => Declaration.read p v)

/-- The entries for the tier with key `bp`: none if no state of it has properties. -/
def itemsOf (selector bp : String) (states : States) : Except ParseError (List Item) := do
  let rules ← (states.entries.filter (!·.2.isEmpty)).mapM fun (ps, properties) =>
    ruleOf selector ps properties
  match Breakpoint.queryOfKey? bp with
  | none => return rules
  | some query =>
    if rules.isEmpty then return []
    else return [.group "media" (← readParams query) rules]

/-- The entries for a style under a selector. -/
def toItems (s : Style) (selector : String) : Except ParseError (List Item) := do
  let selector ← readSelector selector
  return (← s.layers.entries.mapM fun (bp, states) => itemsOf selector bp states).flatten

/-- The stylesheet for a style under a selector. -/
def toSheet (s : Style) (selector : String) : Except ParseError Sheet := do
  return .ofItems (← s.toItems selector)

end TieredStyle.Style
