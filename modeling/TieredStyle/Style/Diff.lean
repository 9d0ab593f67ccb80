import TieredStyle.Style

/-! What has to change in one style to get another. -/
namespace TieredStyle

/-- The two values of a property that differs. -/
structure Change where
  old : String
  new : String
deriving DecidableEq, Inhabited

/-- What differs at each address that has been looked at. -/
structure Diff where
  added : Layers
  removed : Layers
  changed : OrderedMap (OrderedMap (OrderedMap Change))
deriving DecidableEq

/-- Which addresses a comparison looks at: those of the base, or those of either style. -/
inductive DiffScope
  | base | union
deriving DecidableEq

namespace Diff

/-- The properties of `compare` alone. -/
def addedIn (base compare : Properties) : Properties := compare.filter fun p _ => !base.contains p

/-- The properties of `base` alone. -/
def removedIn (base compare : Properties) : Properties := base.filter fun p _ => !compare.contains p

/-- The properties of both with two values. -/
def changedIn (base compare : Properties) : OrderedMap Change :=
  base.filterMap fun p old =>
    (compare.get? p).bind fun new => if new = old then none else some ⟨old, new⟩

/-- The tiers to look at, and the states to look at in a tier; repetitions do no harm. -/
def breakpoints (scope : DiffScope) (base compare : Style) : List String :=
  match scope with
  | .base => base.layers.keys
  | .union => base.layers.keys ++ compare.layers.keys

@[inherit_doc breakpoints]
def states (scope : DiffScope) (base compare : Style) (bp : String) : List String :=
  let keysOf (s : Style) := ((s.layers.get? bp).getD ∅).keys
  match scope with
  | .base => keysOf base
  | .union => keysOf base ++ keysOf compare

/-- What `f` makes of the two sides at each address of the scope. -/
def tabulate {α : Type} (scope : DiffScope) (base compare : Style)
    (f : Properties → Properties → α) : OrderedMap (OrderedMap α) :=
  .tabulate (breakpoints scope base compare) fun bp =>
    .tabulate (states scope base compare bp) fun ps => f (base.lookup bp ps) (compare.lookup bp ps)

/-- The difference of two styles; values are compared as they are written. -/
def between (scope : DiffScope) (base compare : Style) : Diff where
  added := tabulate scope base compare addedIn
  removed := tabulate scope base compare removedIn
  changed := tabulate scope base compare changedIn

/-- Whether nothing differs where it has been looked. -/
def isEmpty (d : Diff) : Bool :=
  let clear {α : Type} (m : OrderedMap (OrderedMap (OrderedMap α))) : Bool :=
    m.values.all (·.values.all (·.isEmpty))
  clear d.added && clear d.removed && clear d.changed

end Diff
end TieredStyle
