import TieredStyle.Breakpoint
import TieredStyle.OrderedMap
import TieredStyle.PseudoState

/-! Styles: the values of properties, by the tier and the state in which they hold. -/
namespace TieredStyle

/-- The value of each property. -/
abbrev Properties := OrderedMap String

/-- The properties of each state. -/
abbrev States := OrderedMap Properties

/-- The states of each tier. -/
abbrev Layers := OrderedMap States

/-- A named style; `version` is the caller's own and nothing here changes it. -/
structure Style where
  id : String := ""
  name : String := ""
  version : UInt64 := 0
  layers : Layers := ∅
deriving DecidableEq

namespace Style

instance : Inhabited Style := ⟨{}⟩

/-- The addresses that a style starts with: every state in every tier. -/
structure Layout where
  breakpoints : List String
  states : List String

/-- All tiers and all states. -/
def Layout.standard : Layout := ⟨Breakpoint.all.map (·.key), PseudoState.all.map (·.key)⟩

/-- No property at each address of a layout. -/
def Layout.layers (l : Layout) : Layers :=
  .tabulate l.breakpoints fun _ => .tabulate l.states fun _ => ∅

def ofLayout (id name : String) (l : Layout) : Style := { id, name, layers := l.layers }

/-- Sets a property and makes its address if need be. -/
def set (s : Style) (bp ps property value : String) : Style :=
  { s with
    layers := s.layers.alter bp fun states =>
      (states.getD ∅).alter ps fun properties => (properties.getD ∅).insert property value }

/-- The properties at an address, none if the style has no such address. -/
def lookup (s : Style) (bp ps : String) : Properties := ((s.layers.get? bp).bind (·.get? ps)).getD ∅

/-- The properties of a tier and a state. -/
def properties (s : Style) (b : Breakpoint) (p : PseudoState) : Properties := s.lookup b.key p.key

def get? (s : Style) (bp ps property : String) : Option String := (s.lookup bp ps).get? property

/-- The properties at each address, in order. -/
def addressed (s : Style) : List Properties := s.layers.values.flatMap (·.values)

def isEmpty (s : Style) : Bool := s.addressed.all (·.isEmpty)

def propertyCount (s : Style) : Nat := s.addressed.foldr (·.size + ·) 0

/-- Puts properties over those at an address that the layers have, and drops them elsewhere. -/
def overlayAt (layers : Layers) (bp ps : String) (properties : List (String × String)) : Layers :=
  layers.modify bp (·.modify ps (·.insertMany properties))

end Style
end TieredStyle
