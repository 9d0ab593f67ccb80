import TieredStyle.Css.Query

/-! Setting one declaration of a stylesheet. -/
namespace TieredStyle.Css

/-- Where to set a declaration, and whether to mark it `!important` in any case. -/
structure Target where
  selector : String := ".token"
  /-- Key of the state, which is put behind the selector. -/
  state : String := PseudoState.base.key
  /-- With parameters only rules under that `@media` are meant, and without any rule is. -/
  media : Option String := none
  important : Bool := false

namespace Sheet

/-- The first rule with this selector, under this `@media` if one is given. -/
def findRule? (s : Sheet) (selector : String) (media : Option String) :
    Except ShapeError (Option Nat) :=
  s.foldUnderMedia (fun inForce id node found =>
    match node with
    | .rule selector' _ =>
      let meant := selector' = selector && media.all fun params => inForce = some params
      .ok (if found.isNone && meant then some id else found)
    | _ => .ok found) none

/-- The first `@media` rule on the root with these parameters. -/
def topMedia? (s : Sheet) (params : String) : Option Nat :=
  (s.children root).find? fun c => (s.node? c).bind Node.media? = some params

/-- Sets a declaration in a block: the first of its property there takes the new value, and if there
is none a declaration is appended. -/
def declareIn (s : Sheet) (block : Nat) (d : Declaration) : Except ShapeError Sheet := do
  let same (c : Nat) : Bool :=
    match s.node? c with
    | some (.declaration e) => e.property = d.property
    | _ => false
  match (s.children block).find? same with
  | some c => return (s.replace? c (.declaration d)).getD s
  | none => return (← s.append block (.declaration d)).2

/-- The node that takes new rules under the given `@media`, which is made if need be. -/
def mediaContainer (s : Sheet) : Option String → Except ShapeError (Nat × Sheet)
  | none => .ok (root, s)
  | some params =>
    match s.topMedia? params with
    | some media => do return (← s.blockOf media, s)
    | none => s.appendMedia root params

/-- Appends a rule with one declaration. -/
def declareRule (s : Sheet) (selector : String) (media : Option String) (d : Declaration) :
    Except ShapeError Sheet := do
  let (c, s) ← s.mediaContainer media
  let (rule, s) ← s.appendRule c selector
  return (← s.append (← s.blockOf rule) (.declaration d)).2

/-- Sets a property where the target says; exactly one declaration is changed or added. -/
def update (s : Sheet) (property value : String) (t : Target) : Except Error Sheet := do
  let read ← reading (Declaration.read property value)
  let d := { read with value.important := read.value.important || t.important }
  let selector ← reading (readSelector (PseudoState.select t.selector t.state))
  let media ← t.media.mapM fun params => reading (readParams params)
  match ← shaping (s.findRule? selector media) with
  | some rule => shaping do s.declareIn (← s.blockOf rule) d
  | none => shaping (s.declareRule selector media d)

end Sheet
end TieredStyle.Css
