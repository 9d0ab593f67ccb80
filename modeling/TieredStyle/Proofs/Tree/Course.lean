import TieredStyle.Proofs.Tree.Listing

/-!
# The course of a walk

Which nodes a walk enters and leaves, and in which order, does not hang on the visitor. The walk goes through
its course step by step until the visitor fails or a block is missing. The course of a tree is a part of its
events from the start on, and it is all of them unless a block is missing.
-/
namespace TieredStyle.Css

/-- Steps of a walk, and the error that stops it after them if there is one. -/
structure Course where
  steps : List Event
  stop : Option ShapeError

namespace Course

def nil : Course := ⟨[], none⟩

def step (e : Event) : Course := ⟨[e], none⟩

/-- One course after the other, if nothing stops the first. -/
def append (c d : Course) : Course :=
  if c.stop.isSome then c else ⟨c.steps ++ d.steps, d.stop⟩

def run {σ : Type} (v : Visitor σ) (c : Course) : EStateM ShapeError σ Unit := do
  c.steps.forM v.act
  match c.stop with
  | none => pure ()
  | some e => throw e

end Course

mutual
def Tree.course : Tree → Course
  | .mk id node block children =>
    (Course.step (.enter id node)).append <|
      (if node.block?.isSome then blockCourse node.kind block else .nil).append <|
        (allCourse children).append (.step (.leave id node))

def blockCourse (owner : NodeKind) : Option Tree → Course
  | none => ⟨[], some (.missingBlock owner)⟩
  | some t => t.course

def allCourse : List Tree → Course
  | [] => .nil
  | t :: ts => t.course.append (allCourse ts)
end

/-! ## Walks follow the course -/

section

variable {σ : Type} (v : Visitor σ)

@[simp] theorem Course.run_nil : Course.nil.run v = pure () := by
  simp [Course.run, Course.nil]

@[simp] theorem Course.run_step (e : Event) : (Course.step e).run v = v.act e := by
  simp [Course.run, Course.step]

@[simp] theorem Course.run_append (c d : Course) : (c.append d).run v = (do c.run v; d.run v) := by
  obtain ⟨steps, stop⟩ := c
  cases stop with
  | none => simp [Course.run, Course.append]
  | some e =>
      simp only [Course.run, Course.append, Option.isSome_some, ↓reduceIte, bind_assoc]
      rfl

mutual
theorem Tree.walk_eq (t : Tree) : t.walk v = t.course.run v := by
  match t with
  | .mk id node block children =>
      simp only [Tree.walk, Tree.course, Course.run_append, Course.run_step, Visitor.act]
      rw [walkAll_eq children]
      split
      next => rw [walkBlock_eq node.kind block]
      next => simp

theorem walkBlock_eq (owner : NodeKind) (block : Option Tree) :
    walkBlock v owner block = (blockCourse owner block).run v := by
  match block with
  | none => simp [walkBlock, blockCourse, Course.run]
  | some t => rw [walkBlock, blockCourse, Tree.walk_eq t]

theorem walkAll_eq (ts : List Tree) : walkAll v ts = (allCourse ts).run v := by
  match ts with
  | [] => simp [walkAll, allCourse]
  | t :: ts => rw [walkAll, allCourse, Course.run_append, Tree.walk_eq t, walkAll_eq ts]
end

end

/-! ## The steps of a course -/

/-- Whether a course goes through some events from the start on, and through all if nothing stops it. -/
structure Course.Through (c : Course) (es : List Event) : Prop where
  steps : c.steps <+: es
  whole : c.stop = none → c.steps = es

namespace Course.Through

variable {c d : Course} {es es' : List Event}

theorem nil : Course.nil.Through [] := ⟨List.prefix_refl _, fun _ => rfl⟩

theorem step (e : Event) : (Course.step e).Through [e] := ⟨List.prefix_refl _, fun _ => rfl⟩

theorem stopped (e : ShapeError) : Course.Through ⟨[], some e⟩ [] := ⟨List.prefix_refl _, fun _ => rfl⟩

theorem append (hc : c.Through es) (hd : d.Through es') : (c.append d).Through (es ++ es') := by
  obtain ⟨steps, stop⟩ := c
  cases stop with
  | some e => exact ⟨hc.steps.trans (List.prefix_append _ _), fun h => by simp [Course.append] at h⟩
  | none =>
      have hsteps : steps = es := hc.whole rfl
      subst hsteps
      exact ⟨(List.prefix_append_right_inj _).2 hd.steps, fun h => congrArg (steps ++ ·) (hd.whole h)⟩

end Course.Through

theorem allCourse_through {ts : List Tree} (h : ∀ t ∈ ts, t.course.Through t.events) :
    (allCourse ts).Through (allEvents ts) := by
  induction ts with
  | nil => exact .nil
  | cons t ts ih =>
      rw [allCourse, allEvents]
      apply (h t List.mem_cons_self).append
      exact ih fun u hu => h u (List.mem_cons_of_mem _ hu)

namespace Sheet

variable {s : Sheet} {t : Tree}

theorem isSome_of_block? {id b : Nat} {node : Node} (hn : s.node? id = some node)
    (hb : s.block? id = some b) : node.block?.isSome := by
  cases hclaim : node.block? with
  | none => simp [block?, hn, hclaim] at hb
  | some _ => rfl

theorem Shows.through (h : s.Shows t) : t.course.Through t.events := by
  induction h with
  | @mk id node block children hn hb hc _ _ ihb ihc =>
      have hblock : (if node.block?.isSome then blockCourse node.kind block else .nil).Through
          (blockEvents block) := by
        cases block with
        | some b =>
            rw [if_pos (isSome_of_block? hn hb)]
            exact ihb b rfl
        | none =>
            split
            · exact .stopped _
            · exact .nil
      rw [Tree.course, Tree.events]
      exact (Course.Through.step _).append (hblock.append ((allCourse_through ihc).append (.step _)))

end Sheet

/-! ## Nesting -/

/-- What is entered is left again, the innermost first. -/
inductive Nested : List Event → Prop
  | nil : Nested []
  | node (id : Nat) (node : Node) {inner rest : List Event} : Nested inner → Nested rest →
      Nested (.enter id node :: (inner ++ .leave id node :: rest))

theorem Nested.append {es es' : List Event} (h : Nested es) (h' : Nested es') : Nested (es ++ es') := by
  induction h with
  | nil => exact h'
  | node id node hinner _ _ ih => simpa using Nested.node id node hinner ih

mutual
theorem Tree.nested_events (t : Tree) : Nested t.events := by
  match t with
  | .mk id node block children =>
      have hinner := (nested_blockEvents block).append (nested_allEvents children)
      simpa [Tree.events] using Nested.node id node hinner .nil

theorem nested_blockEvents (block : Option Tree) : Nested (blockEvents block) := by
  match block with
  | none => exact .nil
  | some t => exact t.nested_events

theorem nested_allEvents (ts : List Tree) : Nested (allEvents ts) := by
  match ts with
  | [] => exact .nil
  | t :: ts => exact t.nested_events.append (nested_allEvents ts)
end

/-! ## The nodes that are open -/

/-- The nodes that are entered and not yet left, the last one first, after an event. -/
def Event.track (nodes : List Nat) : Event → List Nat
  | .enter id _ => id :: nodes
  | .leave id _ => nodes.erase id

def opened (es : List Event) : List Nat := es.foldl Event.track []

theorem Nested.foldl_track {es : List Event} (h : Nested es) (nodes : List Nat) :
    es.foldl Event.track nodes = nodes := by
  induction h generalizing nodes with
  | nil => rfl
  | node id node _ _ ihinner ihrest => simp [Event.track, ihinner, ihrest]

namespace Sheet

/-- Whether each node that is entered hangs on the innermost of those that are open then. -/
def Descends (s : Sheet) (nodes : List Nat) : List Event → Prop
  | [] => True
  | .enter id node :: es =>
    (∃ p, nodes.head? = some p ∧ s.parent? id = some p) ∧
      s.Descends ((Event.enter id node).track nodes) es
  | .leave id node :: es => s.Descends ((Event.leave id node).track nodes) es

variable {s : Sheet}

theorem descends_append {nodes : List Nat} {es es' : List Event} :
    s.Descends nodes (es ++ es') ↔ s.Descends nodes es ∧ s.Descends (es.foldl Event.track nodes) es' := by
  induction es generalizing nodes with
  | nil => simp [Descends]
  | cons e es ih => cases e <;> simp [Descends, ih, and_assoc]

theorem Descends.parent? {nodes : List Nat} {pre post : List Event} {id : Nat} {node : Node}
    (h : s.Descends nodes (pre ++ .enter id node :: post)) :
    ∃ p, (pre.foldl Event.track nodes).head? = some p ∧ s.parent? id = some p :=
  (descends_append.1 h).2.1

theorem descends_allEvents {nodes : List Nat} {ts : List Tree} (h : ∀ t ∈ ts, s.Descends nodes t.events) :
    s.Descends nodes (allEvents ts) := by
  induction ts with
  | nil => trivial
  | cons t ts ih =>
      rw [allEvents, descends_append, t.nested_events.foldl_track]
      exact ⟨h t List.mem_cons_self, ih fun u hu => h u (List.mem_cons_of_mem _ hu)⟩

/-- Below the top of a tree each node is entered under its parent. -/
theorem Shows.descends {t : Tree} (h : s.Shows t) (nodes : List Nat) :
    ∃ node inner, t.events = .enter t.id node :: inner ∧ s.Descends (t.id :: nodes) inner := by
  induction h generalizing nodes with
  | @mk id node block children hn hb hc _ _ ihb ihc =>
      have hbelow : ∀ u : Tree, s.parent? u.id = some id →
          (∃ node inner, u.events = .enter u.id node :: inner ∧ s.Descends (u.id :: id :: nodes) inner) →
          s.Descends (id :: nodes) u.events := by
        rintro u hp ⟨_, inner, he, hinner⟩
        rw [he]
        exact ⟨⟨id, rfl, hp⟩, hinner⟩
      have hblock : s.Descends (id :: nodes) (blockEvents block) := by
        cases block with
        | none => trivial
        | some b => exact hbelow b (parent?_of_block? hb) (ihb b rfl _)
      have hchildren : s.Descends (id :: nodes) (allEvents children) := by
        apply descends_allEvents
        intro c hmem
        apply hbelow c _ (ihc c hmem _)
        apply parent?_of_mem_children
        simpa [hc] using ⟨c, hmem, rfl⟩
      refine ⟨node, _, rfl, ?_⟩
      simp only [descends_append, (nested_blockEvents block).foldl_track,
        (nested_allEvents children).foldl_track]
      exact ⟨hblock, hchildren, trivial⟩

theorem Shows.exists_parent? {t : Tree} (h : s.Shows t) {pre post : List Event} {id : Nat} {node : Node}
    (he : t.events = pre ++ .enter id node :: post) (hne : id ≠ t.id) :
    ∃ p, (opened pre).head? = some p ∧ s.parent? id = some p := by
  obtain ⟨top, inner, htop, hinner⟩ := h.descends []
  rw [htop] at he
  cases pre with
  | nil =>
      cases he
      exact absurd rfl hne
  | cons e pre =>
      obtain ⟨rfl, rfl⟩ := List.cons.inj he
      exact hinner.parent?

end Sheet

end TieredStyle.Css
