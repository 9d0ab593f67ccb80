import TieredStyle.Css.Node
import TieredStyle.Outcome

/-!
Stylesheets as numbered nodes. Each node hangs on one made before it, as one of its children or as
its block; the children of a node are the nodes that hang on it, in the order of their making.
-/
namespace TieredStyle.Css

/-- Where a node hangs. -/
inductive Place
  | root
  | child (owner : Nat)
  | block (owner : Nat)
deriving DecidableEq, Inhabited

namespace Place

def owner? : Place → Option Nat
  | .root => none
  | .child owner | .block owner => some owner

/-- Node `0` alone is a root, and any other hangs on a node made before it. -/
def Fits (id : Nat) : Place → Prop
  | .root => id = 0
  | .child owner | .block owner => owner < id

theorem owner_lt {place : Place} {id owner : Nat} (h : place.Fits id)
    (ho : place.owner? = some owner) : owner < id := by
  cases place with
  | root => cases ho
  | child o => cases ho; exact h
  | block o => cases ho; exact h

end Place

structure Slot where
  node : Node
  place : Place
deriving DecidableEq, Inhabited

structure Sheet where
  slots : Array Slot
  size_pos : 0 < slots.size
  fits : ∀ (id : Nat) (h : id < slots.size), slots[id].place.Fits id

namespace Sheet

/-- Nothing but the root. -/
def empty : Sheet where
  slots := #[⟨.stylesheet, .root⟩]
  size_pos := Nat.one_pos
  fits := fun id h => by
    have : id = 0 := Nat.lt_one_iff.1 h
    subst this
    rfl

instance : Inhabited Sheet := ⟨empty⟩

/-- The number of nodes, blocks and the root included. -/
def size (s : Sheet) : Nat := s.slots.size

def root : Nat := 0

def node? (s : Sheet) (id : Nat) : Option Node := s.slots[id]?.map (·.node)

def place? (s : Sheet) (id : Nat) : Option Place := s.slots[id]?.map (·.place)

def parent? (s : Sheet) (id : Nat) : Option Nat := (s.place? id).bind Place.owner?

def children (s : Sheet) (id : Nat) : List Nat :=
  (List.range s.size).filter fun c => s.place? c = some (.child id)

/-- Whether nothing hangs on the root. -/
def isEmpty (s : Sheet) : Bool := (s.children root).isEmpty

theorem place?_fits {s : Sheet} {id : Nat} {place : Place} (h : s.place? id = some place) :
    id < s.size ∧ place.Fits id := by
  obtain ⟨slot, hs, rfl⟩ := Option.map_eq_some_iff.1 h
  obtain ⟨hlt, rfl⟩ := Array.getElem?_eq_some_iff.1 hs
  exact ⟨hlt, s.fits id hlt⟩

theorem parent_lt {s : Sheet} {id p : Nat} (h : s.parent? id = some p) :
    p < id ∧ id < s.size := by
  obtain ⟨place, hp, ho⟩ := Option.bind_eq_some_iff.1 h
  have hf := place?_fits hp
  exact ⟨Place.owner_lt hf.2 ho, hf.1⟩

theorem mem_children {s : Sheet} {id c : Nat} :
    c ∈ s.children id ↔ s.place? c = some (.child id) := by
  simp only [children, List.mem_filter, List.mem_range, decide_eq_true_eq]
  exact ⟨And.right, fun h => ⟨(place?_fits h).1, h⟩⟩

theorem lt_of_mem_children {s : Sheet} {id c : Nat} (h : c ∈ s.children id) :
    id < c ∧ c < s.size :=
  have hf := place?_fits (mem_children.1 h)
  ⟨hf.2, hf.1⟩

/-- The nodes above a node, the nearest first and the root last. -/
def ancestors (s : Sheet) (id : Nat) : List Nat :=
  match _h : s.parent? id with
  | none => []
  | some p => p :: s.ancestors p
termination_by id
decreasing_by exact (parent_lt ‹_›).1

/-- The block that a node claims, if that is a block and hangs on the node. -/
def block? (s : Sheet) (id : Nat) : Option Nat := do
  let b ← (← s.node? id).block?
  if s.node? b = some .block ∧ s.parent? b = some id then some b else none

theorem block?_lt {s : Sheet} {id b : Nat} (h : s.block? id = some b) : id < b ∧ b < s.size := by
  simp only [block?, Option.bind_eq_bind, Option.bind_eq_some_iff, Option.ite_none_right_eq_some,
    Option.some.injEq] at h
  obtain ⟨_, _, b', _, ⟨_, hp⟩, rfl⟩ := h
  exact parent_lt hp

/-- The block of a rule or an at-rule. -/
def blockOf (s : Sheet) (id : Nat) : Except ShapeError Nat :=
  match s.node? id with
  | none => .error .missingNode
  | some node =>
    match s.block? id with
    | none => .error (.missingBlock node.kind)
    | some b => .ok b

/-! ## Growing and changing a stylesheet -/

/-- One more node, at a place that fits it. -/
def push (s : Sheet) (node : Node) (place : Place) (h : place.Fits s.size) : Sheet where
  slots := s.slots.push ⟨node, place⟩
  size_pos := by simp
  fits := fun id hid => by
    rw [Array.getElem_push]
    split
    next hlt => exact s.fits id hlt
    next hge =>
      have : id = s.size := Nat.le_antisymm
        (Nat.le_of_lt_succ (by rwa [Array.size_push] at hid)) (Nat.le_of_not_lt hge)
      exact this ▸ h

@[simp] theorem size_push (s : Sheet) (node : Node) (place : Place) (h : place.Fits s.size) :
    (s.push node place h).size = s.size + 1 := Array.size_push _

theorem lt_size_push (s : Sheet) (node : Node) (place : Place) (h : place.Fits s.size) :
    s.size < (s.push node place h).size := Nat.lt_of_lt_of_eq (Nat.lt_succ_self _) (s.size_push ..).symm

/-- Another content for a node, which stays where it hangs; `none` if there is no such node. -/
def replace? (s : Sheet) (id : Nat) (node : Node) : Option Sheet :=
  if h : id < s.slots.size then
    some {
      slots := s.slots.set id ⟨node, s.slots[id].place⟩
      size_pos := by simpa using s.size_pos
      fits := fun j hj => by
        rw [Array.getElem_set]
        split
        next he => exact he ▸ s.fits id h
        next => exact s.fits j (by simpa using hj) }
  else none

/-- A node that takes children. -/
def container (s : Sheet) (id : Nat) : Except ShapeError { c : Nat // c < s.size } :=
  if h : id < s.slots.size then
    if s.slots[id].node.isContainer then .ok ⟨id, h⟩
    else .error (.notAContainer s.slots[id].node.kind)
  else .error .missingNode

/-! ## Appends

An append makes its changes one after the other. If it fails then what it has changed by then stays changed.
-/

/-- A program on a stylesheet, with the stylesheet that it leaves in the end or when it fails. -/
abbrev Program := EStateM ShapeError Sheet

namespace Program

/-- A child at the end of a container, which has no block yet and is no container itself. -/
def append (into : Nat) (node : Node) : Program Nat := do
  let s ← get
  let ⟨c, h⟩ ← liftExcept (s.container into)
  if node.isContainer || node.block?.isSome then throw (.invalidChild node.kind)
  set (s.push node (.child c) h)
  return s.size

/-- A child at the end of a container, made for the number of its block, and that block. -/
def appendWithBlock (into : Nat) (node : Option Nat → Node) : Program Nat := do
  let s ← get
  let ⟨c, h⟩ ← liftExcept (s.container into)
  let grown := s.push (node (some (s.size + 1))) (.child c) h
  set grown
  set (grown.push .block (.block s.size) (s.lt_size_push ..))
  return s.size

/-- A rule with an empty block. -/
def appendRule (into : Nat) (selector : String) : Program Nat := appendWithBlock into (.rule selector)

/-- An at-rule with an empty block. -/
def appendAtRule (into : Nat) (name params : String) : Program Nat :=
  appendWithBlock into (.atRule name params)

/-- An `@media` rule with an empty block, which is the node that it gives. -/
def appendMedia (into : Nat) (params : String) : Program Nat := do
  let media ← appendAtRule into "media" params
  liftExcept ((← get).blockOf media)

end Program

def append (s : Sheet) (into : Nat) (node : Node) : Except ShapeError (Nat × Sheet) :=
  outcome (Program.append into node s)

def appendWithBlock (s : Sheet) (into : Nat) (node : Option Nat → Node) : Except ShapeError (Nat × Sheet) :=
  outcome (Program.appendWithBlock into node s)

def appendRule (s : Sheet) (into : Nat) (selector : String) : Except ShapeError (Nat × Sheet) :=
  outcome (Program.appendRule into selector s)

def appendAtRule (s : Sheet) (into : Nat) (name params : String) : Except ShapeError (Nat × Sheet) :=
  outcome (Program.appendAtRule into name params s)

def appendMedia (s : Sheet) (into : Nat) (params : String) : Except ShapeError (Nat × Sheet) :=
  outcome (Program.appendMedia into params s)

end Sheet
end TieredStyle.Css
