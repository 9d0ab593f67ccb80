import TieredStyle.Css.Tree.Walk
import TieredStyle.Proofs.Outcome
import TieredStyle.Proofs.Tree.Shows

/-!
# Walks over whole trees

A tree is whole if every node that claims a block has one. A walk over a whole tree does what its events
tell, one after the other, and it ends early only if the visitor ends it.
-/
namespace TieredStyle.Css

mutual
def Tree.Whole : Tree → Prop
  | .mk _ node block children =>
    node.block?.isSome = block.isSome ∧ WholeBlock block ∧ WholeAll children

def WholeBlock : Option Tree → Prop
  | none => True
  | some t => t.Whole

def WholeAll : List Tree → Prop
  | [] => True
  | t :: ts => t.Whole ∧ WholeAll ts
end

/-- One step of a walk: into a node or out of it. -/
inductive Event
  | enter (id : Nat) (node : Node)
  | leave (id : Nat) (node : Node)

mutual
def Tree.events : Tree → List Event
  | .mk id node block children =>
    .enter id node :: (blockEvents block ++ (allEvents children ++ [.leave id node]))

def blockEvents : Option Tree → List Event
  | none => []
  | some t => t.events

def allEvents : List Tree → List Event
  | [] => []
  | t :: ts => t.events ++ allEvents ts
end

/-- What a visitor does at an event. -/
def Visitor.act {σ : Type} (v : Visitor σ) : Event → EStateM ShapeError σ Unit
  | .enter id node => v.enter id node
  | .leave id node => v.leave id node

variable {σ : Type}

mutual
theorem Tree.Whole.walk_eq {t : Tree} (h : t.Whole) (v : Visitor σ) :
    t.walk v = t.events.forM v.act := by
  match t with
  | .mk id node block children =>
      rw [Tree.Whole] at h
      obtain ⟨hb, hblock, hchildren⟩ := h
      rw [Tree.walk, Tree.events, List.forM_eq_forM, List.forM_cons, List.forM_append,
        List.forM_append, List.forM_cons, List.forM_nil, WholeAll.walk_eq hchildren]
      match block with
      | none =>
          rw [if_neg (by rw [hb]; decide)]
          simp [Visitor.act, blockEvents]
      | some b =>
          rw [if_pos (by rw [hb]; rfl)]
          have hwalk := Tree.Whole.walk_eq (t := b) hblock v
          simp [Visitor.act, blockEvents, walkBlock, hwalk]

theorem WholeAll.walk_eq {ts : List Tree} (h : WholeAll ts) (v : Visitor σ) :
    walkAll v ts = (allEvents ts).forM v.act := by
  match ts with
  | [] => rfl
  | t :: ts =>
      rw [WholeAll] at h
      rw [walkAll, allEvents, List.forM_eq_forM, List.forM_append, Tree.Whole.walk_eq h.1,
        WholeAll.walk_eq h.2]
      rfl
end

/-! ## Visits as folds -/

/-- What becomes of the state at an event. -/
def Visitor.step (v : Visitor σ) (state : σ) (e : Event) : Except ShapeError σ :=
  match (v.act e).run state with
  | .ok _ state => .ok state
  | .error e _ => .error e

/-- A visit of a whole tree goes through its events with the state. -/
theorem Sheet.visit_eq {s : Sheet} (h : s.tree.Whole) (v : Visitor σ) (init : σ) :
    s.visit v init = s.tree.events.foldlM v.step init := by
  have hwalk : s.walk v = s.tree.events.forM v.act := by
    rw [walk, walkFrom, tree?, dif_pos (show root < s.size from s.size_pos), ← h.walk_eq]
    rfl
  rw [visit, hwalk]
  generalize s.tree.events = events
  induction events generalizing init with
  | nil => rfl
  | cons e events ih =>
      rw [List.forM_eq_forM, List.forM_cons, List.foldlM_cons, Visitor.step]
      rw [EStateM.run, bind, Monad.toBind, EStateM.instMonad]
      simp only [EStateM.bind, EStateM.run]
      cases hact : v.act e init with
      | ok u state =>
          have := ih state
          rw [EStateM.run] at this
          rw [List.forM_eq_forM] at this
          exact this
      | error err state => rfl

/-! ## The nodes in document order -/

/-- The node that an event enters. -/
def Event.entered : Event → Option (Nat × Node)
  | .enter id node => some (id, node)
  | .leave .. => none

def Tree.preorder (t : Tree) : List (Nat × Node) := t.events.filterMap Event.entered

theorem Sheet.entered_eq {s : Sheet} (h : s.tree.Whole) :
    s.entered = .ok (s.tree.preorder.map Prod.fst) := by
  have hfold : ∀ (events : List Event) (ids : List Nat),
      events.foldlM (Visitor.step ⟨fun id _ => modify (id :: ·), fun _ _ => pure ()⟩) ids =
        .ok (((events.filterMap Event.entered).map Prod.fst).reverse ++ ids) := by
    intro events
    induction events with
    | nil =>
        intro ids
        rfl
    | cons e events ih =>
        intro ids
        rw [List.foldlM_cons]
        cases e with
        | enter id node =>
            refine (ih (id :: ids)).trans ?_
            simp [Event.entered]
        | leave id node => exact ih ids
  rw [entered, visit_eq h, hfold]
  simp [Tree.preorder, bind, Except.bind, pure, Except.pure]

end TieredStyle.Css
