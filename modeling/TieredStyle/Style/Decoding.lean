import TieredStyle.Css.Query
import TieredStyle.Style

/-! Styles from stylesheets: a rule counts for the tier of its media, the state of its selector. -/
namespace TieredStyle.Style
open TieredStyle.Css

/-- The tier in which a rule holds. -/
def breakpointUnder : Option String → Breakpoint
  | none => .base
  | some query => .ofMedia query

/-- Puts the declarations of a rule at its address, if the layers have it. -/
def collectRule (s : Sheet) (media : Option String) (id : Nat) (node : Node) (layers : Layers) :
    Except ShapeError Layers :=
  match node with
  | .rule selector _ => do
    let ds := s.declarations (← s.blockOf id)
    return overlayAt layers (breakpointUnder media).key (PseudoState.ofSelector selector).key
      (ds.map fun d => (d.property, d.value.text))
  | _ => .ok layers

/-- The style that a stylesheet describes at the addresses of a layout. -/
def ofSheet (s : Sheet) (id name : String) (l : Layout) : Except ShapeError Style := do
  return { id, name, layers := ← s.foldUnderMedia (collectRule s) l.layers }

end TieredStyle.Style
