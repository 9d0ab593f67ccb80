import TieredStyle.Text.Occurs

/-! The states of an element that a selector can ask for. -/
namespace TieredStyle
open TieredStyle.Text

/-- What the user is doing with an element; `base` is nothing in particular. -/
inductive PseudoState
  | base | hover | focus | active
deriving DecidableEq, Inhabited

namespace PseudoState

def all : List PseudoState := [.base, .hover, .focus, .active]

def key : PseudoState → String
  | .base => "default"
  | .hover => "hover"
  | .focus => "focus"
  | .active => "active"

def ofKey? (k : String) : Option PseudoState := all.find? (·.key = k)

/-- The selector for the state with key `k`; any key but that of `base` is taken for a
pseudo-class. -/
def select (selector k : String) : String :=
  if k = base.key then selector else selector ++ ":" ++ k

/-- The selector for this state. -/
def applyTo (p : PseudoState) (selector : String) : String := select selector p.key

/-- The state that a selector asks for: the first of hover, focus and active that it names, wherever
it names it. -/
def ofSelector (selector : String) : PseudoState :=
  ([hover, focus, active].find? fun p => occurs (':' :: p.key.toList) selector.toList).getD base

end PseudoState
end TieredStyle
