import Mathlib.Logic.Function.Basic
import TieredStyle.Proofs.Outcome
import TieredStyle.Proofs.Tree.Grown

/-!
# Stylesheets in three tables

A stylesheet can also be kept in three tables: the contents of the nodes, the node that each of them hangs on, and
the lists of children. An append then writes to them in several steps, and nothing in their type makes them agree.
They hold what a stylesheet says if they answer as it does, and whatever is read into them or appended keeps that.
-/
namespace TieredStyle.Css

/-! ## The tables -/

structure Arena where
  nodes : Array Node
  /-- The node that a node hangs on. -/
  parents : Nat → Option Nat
  /-- The children of a node, if it has been given a list. -/
  lists : Nat → Option (List Nat)

/-- A rule or an at-rule that claims this block. -/
def Node.withBlock (block : Nat) : Node → Node
  | .rule selector _ => .rule selector (some block)
  | .atRule name params _ => .atRule name params (some block)
  | node => node

namespace Arena

/-- Nothing but the root, which has a list. -/
def new : Arena where
  nodes := #[.stylesheet]
  parents _ := none
  lists := Function.update (fun _ => none) Sheet.root (some [])

def size (a : Arena) : Nat := a.nodes.size

def node? (a : Arena) (id : Nat) : Option Node := a.nodes[id]?

def parent? (a : Arena) (id : Nat) : Option Nat := a.parents id

def children (a : Arena) (id : Nat) : List Nat := (a.lists id).getD []

def claim? (a : Arena) (id : Nat) : Option Nat := (a.node? id).bind Node.block?

/-- The block that a node claims, if that is a block and hangs on the node. -/
def block? (a : Arena) (id : Nat) : Option Nat := do
  let b ← (← a.node? id).block?
  if a.node? b = some .block ∧ a.parent? b = some id then some b else none

def blockOf (a : Arena) (id : Nat) : Except ShapeError Nat :=
  match a.node? id with
  | none => .error .missingNode
  | some node =>
    match a.block? id with
    | none => .error (.missingBlock node.kind)
    | some b => .ok b

/-! ## Writing to them -/

/-- Another content for a node; nothing happens if there is no such node. -/
def overwrite (a : Arena) (id : Nat) (node : Node) : Arena :=
  { a with nodes := a.nodes.setIfInBounds id node }

/-- A new node at the end of a list of children. -/
def pushChild (a : Arena) (into : Nat) (node : Node) : Nat × Arena :=
  let siblings :=
    match a.lists into with
    | some siblings => siblings ++ [a.size]
    | none => [a.size]
  (a.size, {
    nodes := a.nodes.push node
    parents := Function.update a.parents a.size (some into)
    lists := Function.update a.lists into (some siblings) })

/-- A new block without children, which the owner claims from now on. -/
def attachBlock (a : Arena) (owner : Nat) : Nat × Arena :=
  (a.size, {
    nodes := (a.nodes.push .block).modify owner (Node.withBlock a.size)
    parents := Function.update a.parents a.size (some owner)
    lists := Function.update a.lists a.size (some []) })

/-- The node is hung up before there is a block for it to claim. -/
def pushWithBlock (a : Arena) (into : Nat) (node : Node) : Nat × Nat × Arena :=
  let (id, a) := a.pushChild into node
  let (block, a) := a.attachBlock id
  (id, block, a)

def checkContainer (a : Arena) (id : Nat) : Except ShapeError Unit :=
  match a.node? id with
  | none => .error .missingNode
  | some node => if node.isContainer then .ok () else .error (.notAContainer node.kind)

def pushDeclarations (a : Arena) (block : Nat) (ds : List Declaration) : Arena :=
  ds.foldl (fun a d => (a.pushChild block (.declaration d)).2) a

mutual
/-- An entry as it is read: the node, its block if it has one, and then what is in the block. -/
def pushItem (a : Arena) (into : Nat) : Item → Arena
  | .rule selector body =>
    let (_, block, a) := a.pushWithBlock into (.rule selector none)
    a.pushDeclarations block body
  | .statement name params => (a.pushChild into (.atRule name params none)).2
  | .descriptors name params body =>
    let (_, block, a) := a.pushWithBlock into (.atRule name params none)
    a.pushDeclarations block body
  | .group name params body =>
    let (_, block, a) := a.pushWithBlock into (.atRule name params none)
    a.pushItems block body

def pushItems (a : Arena) (into : Nat) : List Item → Arena
  | [] => a
  | item :: items => (a.pushItem into item).pushItems into items
end

def ofItems (items : List Item) : Arena := new.pushItems Sheet.root items

/-! ## Appends -/

/-- A program on the tables, with the tables that it leaves in the end or when it fails. -/
abbrev Program := EStateM ShapeError Arena

namespace Program

/-- What can be wrong is looked for before anything is written. -/
def append (into : Nat) (node : Node) : Program Nat := do
  liftExcept ((← get).checkContainer into)
  if node.isContainer || node.block?.isSome then throw (.invalidChild node.kind)
  modifyGet (·.pushChild into node)

/-- The node hangs on the container before it has a block. -/
def appendWithBlock (into : Nat) (node : Node) : Program Nat := do
  liftExcept ((← get).checkContainer into)
  let id ← modifyGet (·.pushChild into node)
  let _ ← modifyGet (·.attachBlock id)
  return id

def appendRule (into : Nat) (selector : String) : Program Nat := appendWithBlock into (.rule selector none)

def appendAtRule (into : Nat) (name params : String) : Program Nat :=
  appendWithBlock into (.atRule name params none)

/-- The block is looked for when the rule is there. -/
def appendMedia (into : Nat) (params : String) : Program Nat := do
  let media ← appendAtRule into "media" params
  liftExcept ((← get).blockOf media)

end Program

def append (a : Arena) (into : Nat) (node : Node) : Except ShapeError (Nat × Arena) :=
  outcome (Program.append into node a)

def appendRule (a : Arena) (into : Nat) (selector : String) : Except ShapeError (Nat × Arena) :=
  outcome (Program.appendRule into selector a)

def appendMedia (a : Arena) (into : Nat) (params : String) : Except ShapeError (Nat × Arena) :=
  outcome (Program.appendMedia into params a)

theorem Program.append_eq (a : Arena) (into : Nat) (node : Node) :
    Program.append into node a = match a.checkContainer into with
      | .error e => .error e a
      | .ok () =>
        if node.isContainer || node.block?.isSome then .error (.invalidChild node.kind) a
        else .ok (a.pushChild into node).1 (a.pushChild into node).2 := by
  rw [Program.append, run_get_bind]
  cases a.checkContainer into with
  | error e => rfl
  | ok u => cases node.isContainer || node.block?.isSome <;> rfl

theorem Program.appendWithBlock_eq (a : Arena) (into : Nat) (node : Node) :
    Program.appendWithBlock into node a = match a.checkContainer into with
      | .error e => .error e a
      | .ok () => .ok (a.pushWithBlock into node).1 (a.pushWithBlock into node).2.2 := by
  rw [Program.appendWithBlock, run_get_bind]
  cases a.checkContainer into <;> rfl

/-! ## What the tables hold -/

/-- The tables answer as the stylesheet does. -/
structure Holds (a : Arena) (s : Sheet) : Prop where
  size : a.size = s.size
  node? : ∀ id, a.node? id = s.node? id
  parent? : ∀ id, a.parent? id = s.parent? id
  children : ∀ id, a.children id = s.children id

variable {a b : Arena} {s t : Sheet} {into owner : Nat} {node : Node}

theorem node?_overwrite (a : Arena) (id j : Nat) (node : Node) :
    (a.overwrite id node).node? j =
      if j = id then if id < a.size then some node else none else a.node? j := by
  by_cases hj : j = id
  · subst hj
    simp only [node?, overwrite, Array.getElem?_setIfInBounds, if_true]
    rfl
  · simp only [node?, overwrite, Array.getElem?_setIfInBounds, hj, Ne.symm hj, if_false]

@[simp] theorem size_pushChild (a : Arena) (into : Nat) (node : Node) :
    (a.pushChild into node).2.size = a.size + 1 := Array.size_push _

theorem node?_pushChild (a : Arena) (into id : Nat) (node : Node) :
    (a.pushChild into node).2.node? id = if id = a.size then some node else a.node? id :=
  Array.getElem?_push

theorem parent?_pushChild (a : Arena) (into id : Nat) (node : Node) :
    (a.pushChild into node).2.parent? id = if id = a.size then some into else a.parent? id := by
  simp only [parent?, pushChild, Function.update_apply]

theorem children_pushChild (a : Arena) (into id : Nat) (node : Node) :
    (a.pushChild into node).2.children id =
      if id = into then a.children id ++ [a.size] else a.children id := by
  by_cases h : id = into
  · subst h
    simp only [children, pushChild, Function.update_self, if_true]
    cases a.lists id <;> rfl
  · simp only [children, pushChild, Function.update_of_ne h, if_neg h]

@[simp] theorem size_attachBlock (a : Arena) (owner : Nat) : (a.attachBlock owner).2.size = a.size + 1 := by
  simp [size, attachBlock]

theorem lt_size_of_node? (h : a.node? owner = some node) : owner < a.size :=
  (Array.getElem?_eq_some_iff.1 h).1

theorem node?_attachBlock (h : a.node? owner = some node) (id : Nat) :
    (a.attachBlock owner).2.node? id = if id = a.size then some .block
      else if id = owner then some (node.withBlock a.size) else a.node? id := by
  have hlt : owner < a.nodes.size := lt_size_of_node? h
  simp only [node?, attachBlock, size, Array.getElem?_modify, Array.getElem?_push] at h ⊢
  by_cases hid : owner = id
  · subst hid
    have hne : owner ≠ a.nodes.size := Nat.ne_of_lt hlt
    simp [hne, h]
  · simp [hid, Ne.symm hid]

theorem parent?_attachBlock (a : Arena) (owner id : Nat) :
    (a.attachBlock owner).2.parent? id = if id = a.size then some owner else a.parent? id := by
  simp only [parent?, attachBlock, Function.update_apply]

theorem children_attachBlock (a : Arena) (owner id : Nat) :
    (a.attachBlock owner).2.children id = if id = a.size then [] else a.children id := by
  by_cases h : id = a.size
  · subst h
    simp only [children, attachBlock, Function.update_self, if_true, Option.getD_some]
  · simp only [children, attachBlock, Function.update_of_ne h, if_neg h]

namespace Holds

theorem claim? (h : a.Holds s) (id : Nat) : a.claim? id = s.claim? id := by
  rw [Arena.claim?, h.node?, Sheet.claim?]

theorem block? (h : a.Holds s) (id : Nat) : a.block? id = s.block? id := by
  simp only [Arena.block?, Sheet.block?, h.node?, h.parent?]

theorem blockOf (h : a.Holds s) (id : Nat) : a.blockOf id = s.blockOf id := by
  cases hn : s.node? id with
  | none => simp only [Arena.blockOf, Sheet.blockOf, h.node?, hn]
  | some node =>
      cases hb : s.block? id <;> simp only [Arena.blockOf, Sheet.blockOf, h.node?, h.block?, hn, hb]

theorem new : Arena.new.Holds .empty where
  size := rfl
  node? id := by cases id <;> rfl
  parent? id := by cases id <;> rfl
  children id := by
    cases id with
    | zero => rfl
    | succ id => exact (Sheet.children_of_size_le (Nat.succ_le_succ (Nat.zero_le id))).symm

theorem pushChild (h : a.Holds s) (node : Node) (hfit : (Place.child into).Fits s.size) :
    (a.pushChild into node).1 = s.size ∧
      (a.pushChild into node).2.Holds (s.push node (.child into) hfit) := by
  refine ⟨h.size, ?_, fun id => ?_, fun id => ?_, fun id => ?_⟩
  · rw [size_pushChild, Sheet.size_push, h.size]
  · rw [node?_pushChild, Sheet.node?_push, h.node?, h.size]
  · rw [parent?_pushChild, Sheet.parent?_push, h.parent?, h.size]
    rfl
  · rw [children_pushChild, Sheet.children_push, h.children, h.size]
    simp only [Place.child.injEq, eq_comm]

theorem attachBlock (h : a.Holds s) (ho : s.replace? owner (node.withBlock s.size) = some t)
    (hn : s.node? owner = some node) (hfit : (Place.block owner).Fits t.size) :
    (a.attachBlock owner).1 = t.size ∧
      (a.attachBlock owner).2.Holds (t.push .block (.block owner) hfit) := by
  have hsize : a.size = t.size := h.size.trans (Sheet.size_replace? ho).symm
  refine ⟨hsize, ?_, fun id => ?_, fun id => ?_, fun id => ?_⟩
  · rw [size_attachBlock, Sheet.size_push, hsize]
  · rw [node?_attachBlock ((h.node? owner).trans hn), Sheet.node?_push, Sheet.node?_replace? ho, h.node?,
      ← hsize, h.size]
  · rw [parent?_attachBlock, Sheet.parent?_push, Sheet.parent?_replace? ho, h.parent?, hsize]
    rfl
  · have hne : Place.block owner ≠ .child id := by simp
    rw [children_attachBlock, Sheet.children_push, if_neg hne, Sheet.children_replace? ho, h.children, h.size]
    split
    next hid => exact (Sheet.children_of_size_le (Nat.le_of_eq hid.symm)).symm
    next => rfl

theorem overwrite (h : a.Holds s) (id : Nat) (node : Node) :
    (a.overwrite id node).Holds ((s.replace? id node).getD s) := by
  have hsize : (a.overwrite id node).size = s.size := Array.size_setIfInBounds.trans h.size
  cases hs : s.replace? id node with
  | none =>
      refine ⟨hsize, fun j => ?_, h.parent?, h.children⟩
      have hle : s.size ≤ id := Sheet.replace?_eq_none_iff.1 hs
      rw [node?_overwrite, h.node?, h.size, if_neg (Nat.not_lt.2 hle), Option.getD_none]
      split
      next hj => exact (Sheet.node?_eq_none_iff.2 (hj ▸ hle)).symm
      next => rfl
  | some t =>
      refine ⟨hsize.trans (Sheet.size_replace? hs).symm, fun j => ?_, fun j => ?_, fun j => ?_⟩
      · have hlt : id < s.size := by
          rw [← Nat.not_le, ← Sheet.replace?_eq_none_iff, hs]
          simp
        rw [node?_overwrite, h.node?, h.size, if_pos hlt, Option.getD_some, Sheet.node?_replace? hs]
      · exact (h.parent? j).trans (Sheet.parent?_replace? hs j).symm
      · exact (h.children j).trans (Sheet.children_replace? hs j).symm

/-! ## Appends -/

theorem checkContainer (h : a.Holds s) (into : Nat) :
    Likewise (fun _ c => c.1 = into) (a.checkContainer into) (s.container into) := by
  rw [Arena.checkContainer, h.node?]
  cases hn : s.node? into with
  | none =>
      rw [Sheet.container_of_missing hn]
      exact .error _
  | some node =>
      cases hc : node.isContainer with
      | true =>
          obtain ⟨hid, hcontainer⟩ := Sheet.container_of_isContainer hn hc
          rw [hcontainer]
          simp only [hc, if_true]
          exact .ok rfl
      | false =>
          rw [Sheet.container_of_notContainer hn hc]
          simp only [hc]
          exact .error _

theorem program_append (h : a.Holds s) (into : Nat) (node : Node) :
    Abreast Eq Holds (Program.append into node a) (Sheet.Program.append into node s) := by
  rw [Program.append_eq, Sheet.Program.append_eq]
  have hcheck := h.checkContainer into
  generalize a.checkContainer into = x at hcheck ⊢
  generalize s.container into = y at hcheck ⊢
  cases hcheck with
  | error e => exact .error e h
  | @ok _ c hc =>
      obtain ⟨c, hlt⟩ := c
      subst hc
      simp only
      split
      next => exact .error _ h
      next =>
        obtain ⟨hid, hpushed⟩ := h.pushChild node hlt
        exact .ok hid hpushed

/-- A node that is hung up first and given a block then is one that is made with its block. -/
theorem pushWithBlock (h : a.Holds s) (make : Option Nat → Node)
    (hmake : ∀ b, (make none).withBlock b = make (some b)) (hfit : (Place.child into).Fits s.size)
    (hfit' : (Place.block s.size).Fits (s.push (make (some (s.size + 1))) (.child into) hfit).size) :
    ∃ b, a.pushWithBlock into (make none) = (s.size, s.size + 1, b) ∧
      b.Holds ((s.push (make (some (s.size + 1))) (.child into) hfit).push .block (.block s.size) hfit') := by
  obtain ⟨hid, hpushed⟩ := h.pushChild (make none) hfit
  have hnode : (s.push (make none) (.child into) hfit).node? s.size = some (make none) := by
    rw [Sheet.node?_push, if_pos rfl]
  have hclaims : (s.push (make none) (.child into) hfit).replace? s.size
      ((make none).withBlock (s.push (make none) (.child into) hfit).size) =
        some (s.push (make (some (s.size + 1))) (.child into) hfit) := by
    rw [Sheet.size_push, hmake]
    exact Sheet.replace?_push ..
  obtain ⟨hblock, hattached⟩ := hpushed.attachBlock hclaims hnode hfit'
  rw [Sheet.size_push] at hblock
  refine ⟨_, ?_, hattached⟩
  simp only [Arena.pushWithBlock, hid, hblock]

theorem program_appendWithBlock (h : a.Holds s) (into : Nat) (make : Option Nat → Node)
    (hmake : ∀ b, (make none).withBlock b = make (some b)) :
    Abreast Eq Holds (Program.appendWithBlock into (make none) a) (Sheet.Program.appendWithBlock into make s) := by
  rw [Program.appendWithBlock_eq, Sheet.Program.appendWithBlock_eq]
  have hcheck := h.checkContainer into
  generalize a.checkContainer into = x at hcheck ⊢
  generalize s.container into = y at hcheck ⊢
  cases hcheck with
  | error e => exact .error e h
  | @ok _ c hc =>
      obtain ⟨c, hlt⟩ := c
      subst hc
      obtain ⟨b, hpush, hb⟩ := h.pushWithBlock make hmake hlt (s.lt_size_push ..)
      simp only [hpush]
      exact .ok rfl hb

theorem program_appendRule (h : a.Holds s) (into : Nat) (selector : String) :
    Abreast Eq Holds (Program.appendRule into selector a) (Sheet.Program.appendRule into selector s) :=
  h.program_appendWithBlock into (.rule selector) fun _ => rfl

theorem program_appendAtRule (h : a.Holds s) (into : Nat) (name params : String) :
    Abreast Eq Holds (Program.appendAtRule into name params a) (Sheet.Program.appendAtRule into name params s) :=
  h.program_appendWithBlock into (.atRule name params) fun _ => rfl

theorem program_appendMedia (h : a.Holds s) (into : Nat) (params : String) :
    Abreast Eq Holds (Program.appendMedia into params a) (Sheet.Program.appendMedia into params s) := by
  refine (h.program_appendAtRule into "media" params).bind ?_
  rintro media _ a s rfl h
  exact .liftExcept (.of_eq (h.blockOf media)) h

/-- The same number, and tables that hold what the stylesheet says. -/
def Given (r : Nat × Arena) (r' : Nat × Sheet) : Prop := r.1 = r'.1 ∧ r.2.Holds r'.2

theorem append (h : a.Holds s) (into : Nat) (node : Node) :
    Likewise Given (a.append into node) (s.append into node) :=
  (h.program_append into node).outcome

theorem appendRule (h : a.Holds s) (into : Nat) (selector : String) :
    Likewise Given (a.appendRule into selector) (s.appendRule into selector) :=
  (h.program_appendRule into selector).outcome

theorem appendMedia (h : a.Holds s) (into : Nat) (params : String) :
    Likewise Given (a.appendMedia into params) (s.appendMedia into params) :=
  (h.program_appendMedia into params).outcome

/-! ## Whole entries -/

theorem pushDeclarations (h : a.Holds s) {block : Nat} (ds : List Declaration)
    (hfit : FitFrom s.size (declarationSlots block ds)) :
    (a.pushDeclarations block ds).Holds (s.extend (declarationSlots block ds) hfit) := by
  induction ds generalizing a s with
  | nil => exact (Sheet.extend_nil hfit).symm ▸ h
  | cons d ds ih =>
      simp only [declarationSlots, List.map_cons] at hfit ⊢
      rw [Sheet.extend_cons]
      exact ih (h.pushChild (.declaration d) hfit.1).2 _

/-- A node with its block, and then what is pushed on the block. -/
theorem pushOwning (h : a.Holds s) {next : Nat} (hnext : s.size = next) (make : Option Nat → Node)
    (hmake : ∀ b, (make none).withBlock b = make (some b)) {l : List Slot}
    (hfit : FitFrom s.size (⟨make (some (next + 1)), .child owner⟩ :: ⟨.block, .block next⟩ :: l)) :
    ∃ b t, a.pushWithBlock owner (make none) = (next, next + 1, b) ∧ b.Holds t ∧ t.size = next + 2 ∧
      ∃ hl : FitFrom t.size l,
        s.extend (⟨make (some (next + 1)), .child owner⟩ :: ⟨.block, .block next⟩ :: l) hfit = t.extend l hl := by
  subst hnext
  have hfit' : (Place.block s.size).Fits (s.push (make (some (s.size + 1))) (.child owner) hfit.1).size := by
    simp [Place.Fits]
  obtain ⟨b, hpush, hb⟩ := h.pushWithBlock make hmake hfit.1 hfit'
  refine ⟨b, _, hpush, hb, by simp, ?_, ?_⟩
  · simpa using hfit.2.2
  · rw [Sheet.extend_cons, Sheet.extend_cons]

mutual
theorem pushItem {a : Arena} {s : Sheet} {owner next : Nat} (h : a.Holds s) (hnext : s.size = next)
    (item : Item) (hfit : FitFrom s.size (item.slots owner next)) :
    (a.pushItem owner item).Holds (s.extend (item.slots owner next) hfit) := by
  match item with
  | .rule selector body =>
      simp only [Item.slots] at hfit ⊢
      obtain ⟨b, t, hpush, hb, -, hl, heq⟩ := h.pushOwning hnext (.rule selector) (fun _ => rfl) hfit
      rw [heq, Arena.pushItem, hpush]
      exact hb.pushDeclarations body hl
  | .statement name params =>
      simp only [Item.slots] at hfit ⊢
      rw [Sheet.extend_cons, Sheet.extend_nil]
      exact (h.pushChild (.atRule name params none) hfit.1).2
  | .descriptors name params body =>
      simp only [Item.slots] at hfit ⊢
      obtain ⟨b, t, hpush, hb, -, hl, heq⟩ := h.pushOwning hnext (.atRule name params) (fun _ => rfl) hfit
      rw [heq, Arena.pushItem, hpush]
      exact hb.pushDeclarations body hl
  | .group name params body =>
      simp only [Item.slots] at hfit ⊢
      obtain ⟨b, t, hpush, hb, hsize, hl, heq⟩ := h.pushOwning hnext (.atRule name params) (fun _ => rfl) hfit
      rw [heq, Arena.pushItem, hpush]
      exact pushItems hb (by omega) hsize body hl

theorem pushItems {a : Arena} {s : Sheet} {owner next : Nat} (h : a.Holds s) (hlt : owner < s.size)
    (hnext : s.size = next) (items : List Item) (hfit : FitFrom s.size (itemSlots owner next items)) :
    (a.pushItems owner items).Holds (s.extend (itemSlots owner next items) hfit) := by
  match items with
  | [] =>
      simp only [itemSlots] at hfit ⊢
      rw [Sheet.extend_nil, Arena.pushItems]
      exact h
  | item :: items =>
      simp only [itemSlots] at hfit ⊢
      have hfirst : FitFrom s.size (item.slots owner next) := hnext ▸ item.fitFrom_slots hlt
      have hsize : (s.extend _ hfirst).size = next + (item.slots owner next).length := by
        rw [Sheet.size_extend, hnext]
      have hrest : FitFrom (s.extend _ hfirst).size
          (itemSlots owner (next + (item.slots owner next).length) items) :=
        hsize ▸ fitFrom_itemSlots (by omega) items
      rw [Sheet.extend_append hfit hfirst hrest, Arena.pushItems]
      exact pushItems (pushItem h hnext item hfirst) (by omega) hsize items hrest
end

theorem ofItems (items : List Item) : (Arena.ofItems items).Holds (.ofItems items) := by
  have hfit : FitFrom Sheet.empty.size (itemSlots Sheet.root 1 items) := fitFrom_itemSlots Nat.one_pos items
  rw [Sheet.ofItems_eq_extend items hfit]
  exact Holds.new.pushItems Nat.one_pos rfl items hfit

end Holds

end Arena
end TieredStyle.Css
