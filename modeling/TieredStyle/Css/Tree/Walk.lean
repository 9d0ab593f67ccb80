import TieredStyle.Css.Tree

/-! Walking a stylesheet depth first, with something to do on the way in and on the way out. -/
namespace TieredStyle.Css

/-- What to do at each node, before and after its block and its children. An error ends the walk
and leaves the state as it is then. -/
structure Visitor (σ : Type) where
  enter : Nat → Node → EStateM ShapeError σ Unit
  leave : Nat → Node → EStateM ShapeError σ Unit

mutual
/-- The block comes before the children. A node that claims a block and owns none ends the walk. -/
def Tree.walk {σ : Type} (v : Visitor σ) : Tree → EStateM ShapeError σ Unit
  | .mk id node block children => do
    v.enter id node
    if node.block?.isSome then walkBlock v node.kind block
    walkAll v children
    v.leave id node

def walkBlock {σ : Type} (v : Visitor σ) (owner : NodeKind) :
    Option Tree → EStateM ShapeError σ Unit
  | none => throw (.missingBlock owner)
  | some block => block.walk v

def walkAll {σ : Type} (v : Visitor σ) : List Tree → EStateM ShapeError σ Unit
  | [] => pure ()
  | t :: ts => do
    t.walk v
    walkAll v ts
end

namespace Sheet

variable {σ : Type}

/-- Walks what hangs on a node, the node included. -/
def walkFrom (s : Sheet) (id : Nat) (v : Visitor σ) : EStateM ShapeError σ Unit :=
  match s.tree? id with
  | none => throw .missingNode
  | some t => t.walk v

def walk (s : Sheet) (v : Visitor σ) : EStateM ShapeError σ Unit := s.walkFrom root v

/-- The state after a walk that starts with `init`, or the error that ends it. -/
def visit (s : Sheet) (v : Visitor σ) (init : σ) : Except ShapeError σ :=
  match (s.walk v).run init with
  | .ok _ state => .ok state
  | .error e _ => .error e

/-- The nodes in document order. -/
def entered (s : Sheet) : Except ShapeError (List Nat) := do
  let reversed ← s.visit ⟨fun id _ => modify (id :: ·), fun _ _ => pure ()⟩ []
  return reversed.reverse

/-- The nodes in document order, each with the number of nodes above it. -/
def outline (s : Sheet) : Except ShapeError (List (Nat × Node)) := do
  return (← s.entered).filterMap fun id => (s.node? id).map ((s.ancestors id).length, ·)

/-! ## Media -/

/-- What is gathered under the `@media` parameters that hold at the place of the walk. -/
structure UnderMedia (σ : Type) where
  media : Option String
  gathered : σ

/-- Entering an `@media` rule puts its parameters in force and leaving any puts none in force, so
after an `@media` rule inside another the outer one no longer counts. -/
def mediaVisitor (f : Option String → Nat → Node → σ → Except ShapeError σ) :
    Visitor (UnderMedia σ) where
  enter id node := do
    if let some params := node.media? then
      modify ({ · with media := some params })
    let state ← get
    match f state.media id node state.gathered with
    | .ok gathered => set { state with gathered }
    | .error e => throw e
  leave _ node := do
    if node.media?.isSome then modify ({ · with media := none })

/-- Folds over the nodes in document order, with the `@media` parameters in force at each. -/
def foldUnderMedia (s : Sheet) (f : Option String → Nat → Node → σ → Except ShapeError σ)
    (init : σ) : Except ShapeError σ := do
  return (← s.visit (mediaVisitor f) ⟨none, init⟩).gathered

end Sheet
end TieredStyle.Css
