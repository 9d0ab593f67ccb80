import TieredStyle.Css.Error
import TieredStyle.Css.Tree.Walk
import TieredStyle.PseudoState

/-! Asking a stylesheet which declarations hold where. -/
namespace TieredStyle.Css
open TieredStyle.Text

namespace Sheet

/-- The declarations among the children of a node. -/
def declarations (s : Sheet) (id : Nat) : List Declaration :=
  (s.children id).filterMap fun c =>
    match s.node? c with
    | some (.declaration d) => some d
    | _ => none

/-- The selector of the nearest rule above a node. -/
def enclosingSelector? (s : Sheet) (id : Nat) : Option String :=
  (s.ancestors id).findSome? fun a =>
    match s.node? a with
    | some (.rule selector _) => some selector
    | _ => none

end Sheet

/-- Which declarations to give; what is not set admits all. -/
structure Filter where
  /-- A part of the selector. -/
  selector : Option String := none
  /-- The parameters of the `@media` in force. -/
  media : Option String := none
  state : Option PseudoState := none

/-- A declaration with what holds where it stands. -/
structure Located where
  declaration : Declaration
  selector : String
  media : Option String
  state : PseudoState
deriving DecidableEq, Inhabited

/-- Whether a declaration passes; the media of the filter have to be normalized. -/
def Filter.admits (f : Filter) (l : Located) : Bool :=
  f.selector.all (fun word => occurs word.toList l.selector.toList) &&
    f.media.all (fun params => l.media = some params) &&
    f.state.all (fun state => l.state = state)

/-- The declarations inside rules that pass a filter, in document order. -/
def Sheet.locate (s : Sheet) (f : Filter) : Except Error (List Located) := do
  let f := { f with media := ← f.media.mapM fun params => reading (readParams params) }
  let reversed ← shaping (s.foldUnderMedia (fun media id node found =>
    match node, s.enclosingSelector? id with
    | .declaration d, some selector =>
      let l : Located := ⟨d, selector, media, PseudoState.ofSelector selector⟩
      .ok (if f.admits l then l :: found else found)
    | _, _ => .ok found) [])
  return reversed.reverse

end TieredStyle.Css
