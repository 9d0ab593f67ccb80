import TieredStyle.Proofs.Tree.Arena
import TieredStyle.Proofs.Tree.Declared
import TieredStyle.Proofs.Tree.Traversed

/-!
# Edits of the tables

Every traversal of the three tables ends, and an edit of them does what it does to the stylesheet that they hold.
So whatever a caller does, the tables agree with each other: a node is in no list but that of the node which the
table of parents names.
-/
namespace TieredStyle.Css
namespace Arena

variable {a : Arena} {s : Sheet}

/-! ## Traversals -/

section

variable {σ : Type}

/-- What a walk does at a node, given what it does at others. -/
def walkStep (a : Arena) (v : Visitor σ) (walk : Nat → EStateM (Option ShapeError) σ Unit) (id : Nat) :
    EStateM (Option ShapeError) σ Unit :=
  match a.node? id with
  | none => throw (some .missingNode)
  | some node => do
    (v.enter id node).adaptExcept some
    if node.block?.isSome then
      match a.blockOf id with
      | .ok b => walk b
      | .error e => throw (some e)
    (a.children id).forM walk
    (v.leave id node).adaptExcept some

/-- A walk through as many levels as there are nodes; there is no error if it is cut off. -/
def walkFrom (a : Arena) (id : Nat) (v : Visitor σ) : EStateM (Option ShapeError) σ Unit :=
  bounded (throw none) (a.walkStep v) a.size id

theorem Holds.walkFrom (h : a.Holds s) (id : Nat) (v : Visitor σ) :
    a.walkFrom id v = (s.walkFrom id v).adaptExcept some := by
  have hstep : a.walkStep v = s.walkStep v := by
    funext walk id
    cases hn : s.node? id with
    | none => simp only [walkStep, Sheet.walkStep, h.node?, hn]
    | some node =>
        cases hb : s.blockOf id <;>
          simp only [walkStep, Sheet.walkStep, h.node?, h.blockOf, h.children, hn, hb]
  rw [Arena.walkFrom, hstep, h.size, s.bounded_walk]

end

def ancestorsStep (a : Arena) (up : Nat → Option (List Nat)) (id : Nat) : Option (List Nat) :=
  match a.parent? id with
  | none => some []
  | some p => (p :: ·) <$> up p

/-- The way up through as many levels as there are nodes, unless it is cut off. -/
def ancestors (a : Arena) (id : Nat) : Option (List Nat) := bounded none a.ancestorsStep a.size id

theorem Holds.ancestors (h : a.Holds s) (id : Nat) : a.ancestors id = some (s.ancestors id) := by
  have hstep : a.ancestorsStep = s.ancestorsStep := by
    funext up id
    cases hp : s.parent? id <;> simp only [ancestorsStep, Sheet.ancestorsStep, h.parent?, hp]
  rw [Arena.ancestors, hstep, h.size, s.bounded_ancestors]

section

variable {σ : Type}

/-- The state after a walk that starts with `init`, or the error that ends it. -/
def visit (a : Arena) (v : Visitor σ) (init : σ) : Except (Option ShapeError) σ :=
  match (a.walkFrom Sheet.root v).run init with
  | .ok _ state => .ok state
  | .error e _ => .error e

/-- The nodes in document order. -/
def entered (a : Arena) : Except (Option ShapeError) (List Nat) := do
  let reversed ← a.visit ⟨fun id _ => modify (id :: ·), fun _ _ => pure ()⟩ []
  return reversed.reverse

/-- Folds over the nodes in document order, with the `@media` parameters in force at each. -/
def foldUnderMedia (a : Arena) (f : Option String → Nat → Node → σ → Except ShapeError σ) (init : σ) :
    Except (Option ShapeError) σ := do
  return (← a.visit (Sheet.mediaVisitor f) ⟨none, init⟩).gathered

theorem Holds.visit (h : a.Holds s) (v : Visitor σ) (init : σ) :
    a.visit v init = (s.visit v init).mapError some := by
  rw [Arena.visit, Sheet.visit, Sheet.walk, h.walkFrom]
  simp only [EStateM.run, EStateM.adaptExcept]
  cases s.walkFrom Sheet.root v init <;> rfl

theorem Holds.entered (h : a.Holds s) : a.entered = s.entered.mapError some := by
  rw [Arena.entered, Sheet.entered, h.visit]
  cases s.visit ⟨fun id _ => modify (id :: ·), fun _ _ => pure ()⟩ [] <;> rfl

theorem Holds.foldUnderMedia (h : a.Holds s) (f : Option String → Nat → Node → σ → Except ShapeError σ)
    (init : σ) : a.foldUnderMedia f init = (s.foldUnderMedia f init).mapError some := by
  rw [Arena.foldUnderMedia, Sheet.foldUnderMedia, h.visit]
  cases s.visit (Sheet.mediaVisitor f) ⟨none, init⟩ <;> rfl

end

/-! ## Setting a declaration -/

/-- The first rule with this selector, under this `@media` if one is given. -/
def findRule? (a : Arena) (selector : String) (media : Option String) :
    Except (Option ShapeError) (Option Nat) :=
  a.foldUnderMedia (fun inForce id node found =>
    match node with
    | .rule selector' _ =>
      let meant := selector' = selector && media.all fun params => inForce = some params
      .ok (if found.isNone && meant then some id else found)
    | _ => .ok found) none

/-- Whether a node is a declaration of the property. -/
def declares (a : Arena) (property : String) (c : Nat) : Bool :=
  match a.node? c with
  | some (.declaration e) => e.property = property
  | _ => false

/-- Sets a declaration in a block: the first of its property there is overwritten, and if there is none a
declaration is appended. -/
def declareIn (a : Arena) (block : Nat) (d : Declaration) : Except ShapeError Arena :=
  match (a.children block).find? (a.declares d.property) with
  | some c => .ok (a.overwrite c (.declaration d))
  | none => do return (← a.append block (.declaration d)).2

/-- The first `@media` rule on the root with these parameters. -/
def topMedia? (a : Arena) (params : String) : Option Nat :=
  (a.children Sheet.root).find? fun c => (a.node? c).bind Node.media? = some params

/-- The node that takes new rules under the given `@media`, which is made if need be. -/
def mediaContainer (a : Arena) : Option String → Except ShapeError (Nat × Arena)
  | none => .ok (Sheet.root, a)
  | some params =>
    match a.topMedia? params with
    | some media => do return (← a.blockOf media, a)
    | none => a.appendMedia Sheet.root params

/-- Appends a rule with one declaration. -/
def declareRule (a : Arena) (selector : String) (media : Option String) (d : Declaration) :
    Except ShapeError Arena := do
  let (c, a) ← a.mediaContainer media
  let (rule, a) ← a.appendRule c selector
  return (← a.append (← a.blockOf rule) (.declaration d)).2

/-- Sets a property where the target says. There is no error if the walk that looks for the rule is cut off. -/
def update (a : Arena) (property value : String) (t : Target) : Except (Option Error) Arena := do
  let read ← (reading (Declaration.read property value)).mapError some
  let d := { read with value.important := read.value.important || t.important }
  let selector ← (reading (readSelector (PseudoState.select t.selector t.state))).mapError some
  let media ← (t.media.mapM fun params => reading (readParams params)).mapError some
  match ← (a.findRule? selector media).mapError (Option.map .shape) with
  | some rule => (shaping do a.declareIn (← a.blockOf rule) d).mapError some
  | none => (shaping (a.declareRule selector media d)).mapError some

namespace Holds

theorem findRule? (h : a.Holds s) (selector : String) (media : Option String) :
    a.findRule? selector media = (s.findRule? selector media).mapError some :=
  h.foldUnderMedia _ none

theorem declares (h : a.Holds s) (property : String) : a.declares property = s.declares property := by
  funext c
  cases hn : s.node? c with
  | none => simp only [Arena.declares, Sheet.declares, h.node?, hn]
  | some node => cases node <;> simp only [Arena.declares, Sheet.declares, h.node?, hn]

theorem declareIn (h : a.Holds s) (block : Nat) (d : Declaration) :
    Likewise Holds (a.declareIn block d) (s.declareIn block d) := by
  rw [Arena.declareIn, Sheet.declareIn_eq, h.children, h.declares]
  cases (s.children block).find? (s.declares d.property) with
  | some c => exact .ok (h.overwrite c (.declaration d))
  | none =>
      refine (h.append block (.declaration d)).bind ?_
      rintro ⟨_, a⟩ ⟨_, s⟩ ⟨-, h⟩
      exact .ok h

theorem topMedia? (h : a.Holds s) (params : String) : a.topMedia? params = s.topMedia? params := by
  simp only [Arena.topMedia?, Sheet.topMedia?, h.children, h.node?]

theorem mediaContainer (h : a.Holds s) (media : Option String) :
    Likewise Given (a.mediaContainer media) (s.mediaContainer media) := by
  cases media with
  | none => exact .ok ⟨rfl, h⟩
  | some params =>
      rw [Arena.mediaContainer, Sheet.mediaContainer, h.topMedia?]
      cases s.topMedia? params with
      | some media =>
          refine (Likewise.of_eq (h.blockOf media)).bind ?_
          rintro b _ rfl
          exact .ok ⟨rfl, h⟩
      | none => exact h.appendMedia Sheet.root params

theorem declareRule (h : a.Holds s) (selector : String) (media : Option String) (d : Declaration) :
    Likewise Holds (a.declareRule selector media d) (s.declareRule selector media d) := by
  refine (h.mediaContainer media).bind ?_
  rintro ⟨c, a⟩ ⟨_, s⟩ ⟨rfl, h⟩
  refine (h.appendRule c selector).bind ?_
  rintro ⟨rule, a⟩ ⟨_, s⟩ ⟨rfl, h⟩
  refine (Likewise.of_eq (h.blockOf rule)).bind ?_
  rintro b _ rfl
  refine (h.append b (.declaration d)).bind ?_
  rintro ⟨_, a⟩ ⟨_, s⟩ ⟨-, h⟩
  exact .ok h

/-- The walk is never cut off, and the answer is that of the stylesheet. -/
theorem update (h : a.Holds s) (property value : String) (t : Target) :
    Likewise Holds (a.update property value t) ((s.update property value t).mapError some) := by
  rw [Arena.update, Sheet.update]
  cases reading (Declaration.read property value) with
  | error e => exact .error _
  | ok read =>
  cases reading (readSelector (PseudoState.select t.selector t.state)) with
  | error e => exact .error _
  | ok selector =>
  cases t.media.mapM fun params => reading (readParams params) with
  | error e => exact .error _
  | ok media =>
  simp only [bind, Except.bind, Except.mapError, h.findRule?]
  cases s.findRule? selector media with
  | error e => exact .error _
  | ok found =>
  cases found with
  | none => exact ((h.declareRule selector media _).mapError Error.shape).mapError some
  | some rule =>
  refine (((Likewise.of_eq (h.blockOf rule)).bind ?_).mapError Error.shape).mapError some
  rintro b _ rfl
  exact h.declareIn b _

end Holds

/-! ## Runs -/

/-- An append of which the number is not asked. -/
def discarding (p : Program Nat) : EStateM (Option Error) Arena Unit :=
  (discard (p.adaptExcept Error.shape)).adaptExcept some

def program : Edit → EStateM (Option Error) Arena Unit
  | .append into node => discarding (Program.append into node)
  | .rule into selector => discarding (Program.appendRule into selector)
  | .atRule into name params => discarding (Program.appendAtRule into name params)
  | .media into params => discarding (Program.appendMedia into params)
  | .update property value target => do set (← liftExcept ((← get).update property value target))

/-- What the tables are afterwards, whether or not an edit fails. -/
def after (a : Arena) : Revision → Arena
  | .edit e => stateAfter (program e a)
  | .overwrite id node => a.overwrite id node

def revise (a : Arena) (revisions : List Revision) : Arena := revisions.foldl after a

namespace Holds

theorem discarding {p : Program Nat} {q : Sheet.Program Nat} (h : Abreast Eq Holds (p a) (q s)) :
    Abreast Eq Holds (Arena.discarding p a) ((discard (q.adaptExcept Error.shape)).adaptExcept some s) :=
  (h.adaptExcept Error.shape).discard.adaptExcept some

theorem program (h : a.Holds s) (e : Edit) :
    Abreast Eq Holds (Arena.program e a) (e.program.adaptExcept some s) := by
  cases e with
  | append into node => exact discarding (h.program_append into node)
  | rule into selector => exact discarding (h.program_appendRule into selector)
  | atRule into name params => exact discarding (h.program_appendAtRule into name params)
  | media into params => exact discarding (h.program_appendMedia into params)
  | update property value target =>
      have hupdate := h.update property value target
      simp only [Arena.program, Edit.program, EStateM.adaptExcept, run_get_bind]
      generalize a.update property value target = x at hupdate ⊢
      cases hs : s.update property value target with
      | ok t =>
          rw [hs] at hupdate
          cases hupdate with
          | ok hab => exact .ok rfl hab
      | error err =>
          rw [hs] at hupdate
          cases hupdate with
          | error => exact .error _ h

theorem after (h : a.Holds s) (r : Revision) : (a.after r).Holds (r.after s) := by
  cases r with
  | overwrite id node => exact h.overwrite id node
  | edit e =>
      have hstate := (h.program e).stateAfter
      rw [stateAfter_adaptExcept] at hstate
      exact hstate

theorem revise (h : a.Holds s) (revisions : List Revision) : (a.revise revisions).Holds (s.revise revisions) := by
  induction revisions generalizing a s with
  | nil => exact h
  | cons r revisions ih => exact ih (h.after r)

end Holds

/-! ## Tables that agree -/

/-- The parents and the lists of children agree, and what hangs on a node was made later. -/
structure Linked (a : Arena) : Prop where
  root : a.parent? Sheet.root = none
  parent : ∀ id, id ≠ Sheet.root → id < a.size → ∃ p < id, a.parent? id = some p
  listed : ∀ p c, c ∈ a.children p → a.parent? c = some p
  ordered : ∀ p, (a.children p).Pairwise (· < ·)

/-- Each node is in the list of its parent or is its block, and a walk comes to each node once. -/
structure IsTree (a : Arena) : Prop extends a.Linked where
  placed : ∀ id p, a.parent? id = some p → Xor (id ∈ a.children p) (a.claim? p = some id)
  block : ∀ id b, a.claim? id = some b → a.blockOf id = .ok b
  entered : ∃ ids, a.entered = .ok ids ∧ ids.Perm (List.range a.size)

theorem Holds.linked (h : a.Holds s) : a.Linked where
  root := (h.parent? _).trans s.parent?_root
  parent id hid hlt := by
    rw [h.size] at hlt
    obtain ⟨place, hplace⟩ : ∃ place, s.place? id = some place :=
      Option.ne_none_iff_exists'.1 fun hnone => Nat.not_le_of_lt hlt (Sheet.place?_eq_none_iff.1 hnone)
    obtain ⟨p, hp⟩ : ∃ p, place.owner? = some p := by
      cases place with
      | root => exact absurd (Sheet.place?_fits hplace).2 hid
      | child p => exact ⟨p, rfl⟩
      | block p => exact ⟨p, rfl⟩
    have hparent : s.parent? id = some p := by rw [Sheet.parent?, hplace, Option.bind_some, hp]
    exact ⟨p, (Sheet.parent_lt hparent).1, (h.parent? id).trans hparent⟩
  listed p c hc := by
    rw [h.children] at hc
    rw [h.parent?, Sheet.parent?, Sheet.mem_children.1 hc]
    rfl
  ordered p := by
    rw [h.children]
    exact s.pairwise_children p

theorem Holds.isTree (h : a.Holds s) (hs : s.IsTree) : a.IsTree where
  toLinked := h.linked
  placed id p hp := by
    rw [h.parent?] at hp
    have hroot : id ≠ Sheet.root := by
      rintro rfl
      rw [s.parent?_root] at hp
      cases hp
    obtain ⟨q, hq, hxor⟩ := hs.placed id hroot (Sheet.parent_lt hp).2
    cases hp.symm.trans hq
    have hcount : (s.children p).count id = 1 ↔ id ∈ s.children p := by
      have hnodup : (s.children p).Nodup := (hs.ordered p).imp Nat.ne_of_lt
      exact ⟨fun h => List.count_pos_iff.1 (by omega), List.count_eq_one_of_mem hnodup⟩
    rw [h.children, h.claim?, ← hcount]
    exact hxor
  block id b hb := by
    rw [h.claim?] at hb
    rw [h.blockOf, hs.block id b hb]
  entered := by
    obtain ⟨ids, hids, hperm⟩ := hs.entered
    refine ⟨ids, ?_, h.size ▸ hperm⟩
    rw [h.entered, hids]
    rfl

/-- However entries are read and whatever is edited and overwritten then, the tables agree. -/
theorem linked_revise (items : List Item) (revisions : List Revision) :
    ((ofItems items).revise revisions).Linked :=
  ((Holds.ofItems items).revise revisions).linked

/-- No traversal is cut off. -/
theorem ends_revise (items : List Item) (revisions : List Revision) (id : Nat) :
    let a := (ofItems items).revise revisions
    (∃ ids, a.ancestors id = some ids) ∧
      ∀ {σ : Type} (v : Visitor σ) (state state' : σ), a.walkFrom id v state ≠ .error none state' := by
  intro a
  have h : a.Holds ((Sheet.ofItems items).revise revisions) := (Holds.ofItems items).revise revisions
  refine ⟨⟨_, h.ancestors id⟩, fun v state state' hcut => ?_⟩
  rw [h.walkFrom] at hcut
  simp only [EStateM.adaptExcept] at hcut
  split at hcut <;> cases hcut

/-- Edits alone keep them a tree. -/
theorem isTree_revise (items : List Item) (edits : List Edit) :
    ((ofItems items).revise (edits.map .edit)).IsTree := by
  have h : ((ofItems items).revise (edits.map .edit)).Holds ((Sheet.ofItems items).revise (edits.map .edit)) :=
    (Holds.ofItems items).revise _
  have hrun : (Sheet.ofItems items).revise (edits.map .edit) = (Sheet.ofItems items).run edits := List.foldl_map
  rw [hrun] at h
  exact h.isTree (((Sheet.ofItems items).reaches_run edits).coherent (Sheet.coherent_ofItems items)).isTree

end Arena
end TieredStyle.Css
