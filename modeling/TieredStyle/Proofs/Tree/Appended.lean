import TieredStyle.Proofs.Tree.Tabled

/-!
# Appending to a container

Whatever stands in the tables, an append looks for all that can be wrong before it writes anything. Either it fails
with the tables as they were, or it hangs one node on the container, behind the children that are there, with a
block of its own or without one.
-/
namespace TieredStyle.Css

theorem Node.isContainer_iff {node : Node} : node.isContainer = true ↔ node = .stylesheet ∨ node = .block := by
  cases node <;> simp [isContainer]

/-! ## Appends -/

/-- What can be appended to a container. -/
inductive Appending
  | node (n : Node)
  | rule (selector : String)
  | atRule (name params : String)
  | media (params : String)

namespace Appending

def program (into : Nat) : Appending → Arena.Program Nat
  | .node n => Arena.Program.append into n
  | .rule selector => Arena.Program.appendRule into selector
  | .atRule name params => Arena.Program.appendAtRule into name params
  | .media params => Arena.Program.appendMedia into params

def sheetProgram (into : Nat) : Appending → Sheet.Program Nat
  | .node n => Sheet.Program.append into n
  | .rule selector => Sheet.Program.appendRule into selector
  | .atRule name params => Sheet.Program.appendAtRule into name params
  | .media params => Sheet.Program.appendMedia into params

/-- The child that comes in, if it is numbered `next`. A block comes in right behind it. -/
def child (next : Nat) : Appending → Node
  | .node n => n
  | .rule selector => .rule selector (some (next + 1))
  | .atRule name params => .atRule name params (some (next + 1))
  | .media params => .atRule "media" params (some (next + 1))

/-- How many nodes come in. -/
def added : Appending → Nat
  | .node _ => 1
  | _ => 2

/-- The node that the caller gets: the child, or the block of an `@media` rule. -/
def given (next : Nat) : Appending → Nat
  | .media _ => next + 1
  | _ => next

/-- Why an append is barred. -/
inductive Barred (a : Arena) (into : Nat) : Appending → ShapeError → Prop
  | missing {x : Appending} : a.node? into = none → Barred a into x .missingNode
  | notContainer {x : Appending} {c : Node} : a.node? into = some c → c ≠ .stylesheet → c ≠ .block →
      Barred a into x (.notAContainer c.kind)
  /-- A container is no child, and neither is a node that claims a block already. -/
  | invalidChild {c n : Node} : a.node? into = some c → c = .stylesheet ∨ c = .block →
      n = .stylesheet ∨ n = .block ∨ n.block?.isSome → Barred a into (.node n) (.invalidChild n.kind)

end Appending

/-! ## What comes in -/

namespace Arena

variable {a a' : Arena} {into : Nat} {node : Node}

/-- A node is hung on a container as its last child, and nothing else is different. -/
structure Grows (a a' : Arena) (into : Nat) (x : Node) (added : Nat) : Prop where
  size : a'.size = a.size + added
  child : a'.node? a.size = some x
  parent : a'.parent? a.size = some into
  last : a'.children into = a.children into ++ [a.size]
  /-- What claims a block owns it. -/
  block : ∀ b, x.block? = some b → a'.blockOf a.size = .ok b ∧ a'.children b = []
  node? : ∀ id < a.size, a'.node? id = a.node? id
  parent? : ∀ id < a.size, a'.parent? id = a.parent? id
  children : ∀ id, id ≠ into → a'.children id = a.children id

theorem grows_pushChild (a : Arena) (into : Nat) (hnode : node.block? = none) :
    a.Grows (a.pushChild into node).2 into node 1 where
  size := size_pushChild ..
  child := by rw [node?_pushChild, if_pos rfl]
  parent := by rw [parent?_pushChild, if_pos rfl]
  last := by rw [children_pushChild, if_pos rfl]
  block b hb := by simp [hnode] at hb
  node? id hid := by rw [node?_pushChild, if_neg (Nat.ne_of_lt hid)]
  parent? id hid := by rw [parent?_pushChild, if_neg (Nat.ne_of_lt hid)]
  children id hid := by rw [children_pushChild, if_neg hid]

@[simp] theorem size_pushWithBlock (a : Arena) (into : Nat) (node : Node) :
    (a.pushWithBlock into node).2.2.size = a.size + 2 :=
  (size_attachBlock ..).trans (congrArg (· + 1) (size_pushChild ..))

theorem node?_pushWithBlock (a : Arena) (into id : Nat) (node : Node) :
    (a.pushWithBlock into node).2.2.node? id = if id = a.size + 1 then some .block
      else if id = a.size then some (node.withBlock (a.size + 1)) else a.node? id := by
  have hpushed : (a.pushChild into node).2.node? a.size = some node := by rw [node?_pushChild, if_pos rfl]
  have h := node?_attachBlock hpushed id
  rw [size_pushChild, node?_pushChild] at h
  refine h.trans ?_
  split
  next => rfl
  next => split <;> rfl

theorem parent?_pushWithBlock (a : Arena) (into id : Nat) (node : Node) :
    (a.pushWithBlock into node).2.2.parent? id = if id = a.size + 1 then some a.size
      else if id = a.size then some into else a.parent? id := by
  have h := parent?_attachBlock (a.pushChild into node).2 a.size id
  rw [size_pushChild, parent?_pushChild] at h
  exact h

theorem children_pushWithBlock (a : Arena) (into id : Nat) (node : Node) :
    (a.pushWithBlock into node).2.2.children id = if id = a.size + 1 then []
      else if id = into then a.children id ++ [a.size] else a.children id := by
  have h := children_attachBlock (a.pushChild into node).2 a.size id
  rw [size_pushChild, children_pushChild] at h
  exact h

/-- The number of the block is not used by any list yet. -/
theorem grows_pushWithBlock (hinto : into < a.size) (hunused : a.children (a.size + 1) = [])
    (hnode : (node.withBlock (a.size + 1)).block? = some (a.size + 1)) :
    a.Grows (a.pushWithBlock into node).2.2 into (node.withBlock (a.size + 1)) 2 := by
  have hnext : a.size ≠ a.size + 1 := Nat.ne_of_lt (Nat.lt_succ_self _)
  have hold : ∀ id < a.size, id ≠ a.size + 1 ∧ id ≠ a.size := fun id hid =>
    ⟨Nat.ne_of_lt (Nat.lt_succ_of_lt hid), Nat.ne_of_lt hid⟩
  have hchild : (a.pushWithBlock into node).2.2.node? a.size = some (node.withBlock (a.size + 1)) := by
    rw [node?_pushWithBlock, if_neg hnext, if_pos rfl]
  constructor
  case size => exact size_pushWithBlock ..
  case child => exact hchild
  case parent => rw [parent?_pushWithBlock, if_neg hnext, if_pos rfl]
  case last => rw [children_pushWithBlock, if_neg (hold into hinto).1, if_pos rfl]
  case block =>
    intro b hb
    cases hnode.symm.trans hb
    refine ⟨?_, by rw [children_pushWithBlock, if_pos rfl]⟩
    simp only [blockOf, block?, hchild, hnode, node?_pushWithBlock, parent?_pushWithBlock, bind, Option.bind,
      if_true, and_self]
  case node? =>
    intro id hid
    rw [node?_pushWithBlock, if_neg (hold id hid).1, if_neg (hold id hid).2]
  case parent? =>
    intro id hid
    rw [parent?_pushWithBlock, if_neg (hold id hid).1, if_neg (hold id hid).2]
  case children =>
    intro id hid
    rw [children_pushWithBlock, if_neg hid]
    split
    next h => rw [h, hunused]
    next => rfl

/-! ## What becomes of an append -/

theorem checkContainer_of_missing (h : a.node? into = none) : a.checkContainer into = .error .missingNode := by
  rw [checkContainer, h]

theorem checkContainer_of_isContainer (h : a.node? into = some node) (hc : node.isContainer = true) :
    a.checkContainer into = .ok () := by
  simp only [checkContainer, h, hc, if_true]

theorem checkContainer_of_notContainer (h : a.node? into = some node) (hc : node.isContainer = false) :
    a.checkContainer into = .error (.notAContainer node.kind) := by
  simp only [checkContainer, h, hc]
  rfl

theorem appendWithBlock_of_isContainer {c : Node} (h : a.node? into = some c) (hc : c.isContainer = true)
    (node : Node) : Program.appendWithBlock into node a = .ok a.size (a.pushWithBlock into node).2.2 := by
  rw [Program.appendWithBlock_eq, checkContainer_of_isContainer h hc]
  rfl

end Arena

namespace Appending

variable {a a' : Arena} {into : Nat} {x : Appending} {e : ShapeError}

/-- Nothing is written if the container is refused. -/
theorem program_of_checkContainer (h : a.checkContainer into = .error e) (x : Appending) :
    x.program into a = .error e a := by
  have hblock (node : Node) : Arena.Program.appendWithBlock into node a = .error e a := by
    rw [Arena.Program.appendWithBlock_eq, h]
  cases x with
  | node n =>
      rw [program, Arena.Program.append_eq, h]
  | rule selector => exact hblock _
  | atRule name params => exact hblock _
  | media params => exact run_bind_error (hblock _)

/-- What is barred fails before anything is written. -/
theorem Barred.program (h : x.Barred a into e) : x.program into a = .error e a := by
  cases h with
  | missing hc => exact program_of_checkContainer (Arena.checkContainer_of_missing hc) x
  | notContainer hc hsheet hblock =>
      apply program_of_checkContainer
      apply Arena.checkContainer_of_notContainer hc
      simp [← Bool.not_eq_true, Node.isContainer_iff, hsheet, hblock]
  | @invalidChild c n hc hcontainer hn =>
      have hchild : (n.isContainer || n.block?.isSome) = true := by
        simpa [Node.isContainer_iff, or_assoc] using hn
      rw [Appending.program, Arena.Program.append_eq,
        Arena.checkContainer_of_isContainer hc (Node.isContainer_iff.2 hcontainer)]
      simp only [hchild, if_true]

/-- What is not barred is done. -/
theorem exists_grows (hunused : a.children (a.size + 1) = []) (h : ∀ e, ¬ x.Barred a into e) :
    ∃ a', x.program into a = .ok (x.given a.size) a' ∧ a.Grows a' into (x.child a.size) x.added := by
  obtain ⟨c, hc⟩ : ∃ c, a.node? into = some c := by
    apply Option.ne_none_iff_exists'.1
    intro hnone
    exact h _ (.missing hnone)
  have hstands : c = .stylesheet ∨ c = .block := by
    by_contra hstands
    obtain ⟨hsheet, hblock⟩ := not_or.1 hstands
    exact h _ (.notContainer hc hsheet hblock)
  have hcontainer : c.isContainer = true := Node.isContainer_iff.2 hstands
  have hinto : into < a.size := Arena.lt_size_of_node? hc
  cases x with
  | node n =>
      have hn : ¬ (n = .stylesheet ∨ n = .block ∨ n.block?.isSome) := fun hn => h _ (.invalidChild hc hstands hn)
      have hblock : n.block? = none := by simpa using fun hb => hn (.inr (.inr hb))
      have hchild : (n.isContainer || n.block?.isSome) = false := by
        simpa [← Bool.not_eq_true, Node.isContainer_iff, or_assoc] using hn
      refine ⟨_, ?_, Arena.grows_pushChild a into hblock⟩
      rw [program, Arena.Program.append_eq, Arena.checkContainer_of_isContainer hc hcontainer]
      simp only [hchild]
      rfl
  | rule selector =>
      exact ⟨_, Arena.appendWithBlock_of_isContainer hc hcontainer (.rule selector none),
        Arena.grows_pushWithBlock hinto hunused rfl⟩
  | atRule name params =>
      exact ⟨_, Arena.appendWithBlock_of_isContainer hc hcontainer (.atRule name params none),
        Arena.grows_pushWithBlock hinto hunused rfl⟩
  | media params =>
      have hgrows : a.Grows (a.pushWithBlock into (.atRule "media" params none)).2.2 into
          (.atRule "media" params (some (a.size + 1))) 2 := Arena.grows_pushWithBlock hinto hunused rfl
      refine ⟨_, ?_, hgrows⟩
      rw [program, Arena.Program.appendMedia, Arena.Program.appendAtRule,
        run_bind (Arena.appendWithBlock_of_isContainer hc hcontainer _), run_get_bind, (hgrows.block _ rfl).1]
      rfl

theorem program_eq_error_iff (hunused : a.children (a.size + 1) = []) :
    x.program into a = .error e a' ↔ x.Barred a into e ∧ a' = a := by
  constructor
  · intro hrun
    by_cases h : ∃ e', x.Barred a into e'
    · obtain ⟨e', he'⟩ := h
      cases he'.program.symm.trans hrun
      exact ⟨he', rfl⟩
    · obtain ⟨_, hok, _⟩ := exists_grows hunused (not_exists.1 h)
      cases hok.symm.trans hrun
  · rintro ⟨h, rfl⟩
    exact h.program

/-- The tables and the stylesheet that they hold change alike. -/
theorem program_abreast {s : Sheet} (h : a.Holds s) (into : Nat) (x : Appending) :
    Abreast Eq Arena.Holds (x.program into a) (x.sheetProgram into s) := by
  cases x with
  | node n => exact h.program_append into n
  | rule selector => exact h.program_appendRule into selector
  | atRule name params => exact h.program_appendAtRule into name params
  | media params => exact h.program_appendMedia into params

end Appending

namespace Arena

variable {a : Arena} {s t : Sheet}

theorem Holds.children_of_size_le (h : a.Holds s) {id : Nat} (hid : a.size ≤ id) : a.children id = [] := by
  rw [h.children]
  exact Sheet.children_of_size_le (h.size ▸ hid)

theorem Holds.place? (h : a.Holds s) (h' : a.Holds t) {id : Nat} {place : Place} (hs : s.place? id = some place) :
    t.place? id = some place := by
  have hchild (p : Nat) : s.place? id = some (.child p) ↔ t.place? id = some (.child p) := by
    rw [← Sheet.mem_children, ← Sheet.mem_children, ← h.children, h'.children]
  have hlt : id < t.size := (h.size.symm.trans h'.size) ▸ (Sheet.place?_fits hs).1
  obtain ⟨place', ht⟩ : ∃ place', t.place? id = some place' :=
    Option.ne_none_iff_exists'.1 fun hnone => Nat.not_le_of_lt hlt (Sheet.place?_eq_none_iff.1 hnone)
  have howner : place.owner? = place'.owner? := by
    have hparent : s.parent? id = t.parent? id := (h.parent? id).symm.trans (h'.parent? id)
    simpa only [Sheet.parent?, hs, ht, Option.bind_some] using hparent
  rw [ht]
  cases place with
  | child p => rw [← ht, ← hchild, hs]
  | root =>
      cases place' with
      | root => rfl
      | child p => cases howner
      | block p => cases howner
  | block p =>
      cases place' with
      | root => cases howner
      | block p' =>
          cases howner
          rfl
      | child p' =>
          rw [(hchild p').2 ht] at hs
          cases hs

/-- The tables hold one stylesheet. -/
theorem Holds.unique (h : a.Holds s) (h' : a.Holds t) : s = t := by
  have hplace (id : Nat) : s.place? id = t.place? id := by
    cases hs : s.place? id with
    | some place => exact (h.place? h' hs).symm
    | none =>
        cases ht : t.place? id with
        | none => rfl
        | some place => cases hs.symm.trans (h'.place? h ht)
  apply Sheet.slots_ext
  apply Array.ext_getElem?
  intro id
  have hnode : s.node? id = t.node? id := (h.node? id).symm.trans (h'.node? id)
  have hplace := hplace id
  simp only [Sheet.node?, Sheet.place?] at hnode hplace
  generalize s.slots[id]? = x at hnode hplace ⊢
  generalize t.slots[id]? = y at hnode hplace ⊢
  cases x with
  | none => exact (Option.map_eq_none_iff.1 hnode.symm).symm
  | some x =>
      obtain ⟨node, place⟩ := x
      obtain ⟨⟨_, _⟩, rfl, rfl⟩ := Option.map_eq_some_iff.1 hnode.symm
      cases hplace
      rfl

end Arena

/-- An append fails exactly if it is barred, and everything is then as it was. Any other hangs its child on the
container, behind the children that are there, and nothing else is different. -/
theorem Arena.append_outcome (items : List Item) (revisions : List Revision) (into : Nat) (x : Appending) :
    let a := (ofItems items).revise revisions
    let s := (Sheet.ofItems items).revise revisions
    (∀ e a', x.program into a = .error e a' ↔ x.Barred a into e ∧ a' = a) ∧
      ((∀ e, ¬ x.Barred a into e) →
        ∃ a', x.program into a = .ok (x.given a.size) a' ∧ a.Grows a' into (x.child a.size) x.added) ∧
      Abreast Eq Holds (x.program into a) (x.sheetProgram into s) ∧
      ∀ e s', x.sheetProgram into s = .error e s' → s' = s := by
  intro a s
  have hholds : a.Holds s := (Holds.ofItems items).revise revisions
  have hunused : a.children (a.size + 1) = [] := hholds.children_of_size_le (Nat.le_succ _)
  have habreast : Abreast Eq Holds (x.program into a) (x.sheetProgram into s) :=
    Appending.program_abreast hholds into x
  refine ⟨fun e a' => Appending.program_eq_error_iff hunused, Appending.exists_grows hunused, habreast, ?_⟩
  intro e s' hs
  rw [hs] at habreast
  generalize hrun : x.program into a = r at habreast
  cases habreast with
  | error e hholds' =>
      obtain ⟨_, rfl⟩ := (Appending.program_eq_error_iff hunused).1 hrun
      exact hholds'.unique hholds

/-- A declaration that is made a block takes a rule, but no further block. -/
theorem Arena.append_outcome_rewired :
    let a := (ofItems []).revise [.edit (.append 0 (.declaration ⟨"x", ⟨"y", false⟩⟩)), .overwrite 1 .block]
    (Appending.node .block).program 1 a = .error (.invalidChild .block) a ∧
      (∀ e, ¬ (Appending.rule ".a").Barred a 1 e) ∧
      ∃ a', (Appending.rule ".a").program 1 a = .ok 2 a' ∧ a.Grows a' 1 (.rule ".a" (some 3)) 2 := by
  intro a
  have hnode : a.node? 1 = some .block := by decide +kernel
  have hsize : a.size = 2 := by decide +kernel
  have hbarred : (Appending.node .block).Barred a 1 (.invalidChild .block) :=
    .invalidChild hnode (.inr rfl) (.inr (.inl rfl))
  have hadmitted : ∀ e, ¬ (Appending.rule ".a").Barred a 1 e := by
    intro e he
    cases he with
    | missing h => simp [hnode] at h
    | notContainer h _ hblock =>
        rw [hnode] at h
        exact hblock (Option.some.inj h).symm
  obtain ⟨hfails, _⟩ := append_outcome []
    [.edit (.append 0 (.declaration ⟨"x", ⟨"y", false⟩⟩)), .overwrite 1 .block] 1 (.node .block)
  obtain ⟨_, hdone, _⟩ := append_outcome []
    [.edit (.append 0 (.declaration ⟨"x", ⟨"y", false⟩⟩)), .overwrite 1 .block] 1 (.rule ".a")
  have hgrown := hdone hadmitted
  rw [hsize] at hgrown
  exact ⟨(hfails _ _).2 ⟨hbarred, rfl⟩, hadmitted, hgrown⟩

end TieredStyle.Css
