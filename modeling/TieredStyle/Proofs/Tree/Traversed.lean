import TieredStyle.Proofs.Tree.Bounded
import TieredStyle.Proofs.Tree.Course
import TieredStyle.Proofs.Tree.Runs

/-!
# Traversals of stylesheets that are edited freely

A caller may put any content in the place of any node, so that nodes claim blocks that are not theirs. No
such edit moves a node. So every traversal ends, a walk goes down from each node to those that hang on it,
and a walk that succeeds leaves all that it has entered.
-/
namespace TieredStyle.Css

/-! ## Free edits -/

/-- An edit, or any content for a node. -/
inductive Revision
  | edit (e : Edit)
  | overwrite (id : Nat) (node : Node)

namespace Revision

/-- What the stylesheet is afterwards; nothing is different if there is no node to put a content in. -/
def after (s : Sheet) : Revision → Sheet
  | edit e => e.after s
  | overwrite id node => (s.replace? id node).getD s

end Revision

def Sheet.revise (s : Sheet) (revisions : List Revision) : Sheet := revisions.foldl Revision.after s

/-! ## No node is moved -/

section

variable {s s' : Sheet} {id : Nat} {place : Place}

theorem Sheet.place?_push_of_some {node : Node} {other : Place} (h : other.Fits s.size)
    (hp : s.place? id = some place) : (s.push node other h).place? id = some place := by
  rw [place?_push, if_neg (Nat.ne_of_lt (place?_fits hp).1), hp]

theorem Sheet.Alters.place?_mono (h : s.Alters s') (hp : s.place? id = some place) :
    s'.place? id = some place := by
  cases h with
  | child h => exact place?_push_of_some h hp
  | owning h h' => exact place?_push_of_some h' (place?_push_of_some h hp)
  | declare _ h => rw [place?_replace? h, hp]

theorem Sheet.Reaches.place?_mono (h : s.Reaches s') (hp : s.place? id = some place) :
    s'.place? id = some place := by
  induction h with
  | refl => exact hp
  | tail _ h ih => exact h.place?_mono ih

theorem Revision.place?_after (r : Revision) (hp : s.place? id = some place) :
    (r.after s).place? id = some place := by
  cases r with
  | edit e => exact (e.reaches_after s).place?_mono hp
  | overwrite c node =>
      rw [after]
      cases h : s.replace? c node with
      | none => exact hp
      | some t => exact (Sheet.place?_replace? h id).trans hp

end

/-! ## Visitors that keep a log -/

section

variable {σ : Type}

/-- A result together with a log. -/
def logged (log : List Event) :
    EStateM.Result ShapeError σ Unit → EStateM.Result ShapeError (List Event × σ) Unit
  | .ok u state => .ok u (log, state)
  | .error e state => .error e (log, state)

/-- A visitor that also logs what it is called for, whether it fails then or not. -/
def Visitor.logging (v : Visitor σ) : Visitor (List Event × σ) where
  enter id node := fun (log, state) => logged (log ++ [.enter id node]) (v.enter id node state)
  leave id node := fun (log, state) => logged (log ++ [.leave id node]) (v.leave id node state)

theorem act_logging (v : Visitor σ) (e : Event) (log : List Event) (state : σ) :
    v.logging.act e (log, state) = logged (log ++ [e]) (v.act e state) := by
  cases e <;> rfl

theorem forM_act_cons (v : Visitor σ) (e : Event) (es : List Event) (state : σ) :
    (e :: es).forM v.act state = match v.act e state with
      | .ok _ next => es.forM v.act next
      | .error err next => .error err next := by
  simp only [List.forM_eq_forM, List.forM_cons, bind, EStateM.bind]
  cases v.act e state <;> rfl

/-- A log of some events that ends where the visitor fails. -/
theorem forM_logging (v : Visitor σ) (es log : List Event) (state : σ) :
    ∃ made, made <+: es ∧ es.forM v.logging.act (log, state) = logged (log ++ made) (es.forM v.act state) ∧
      ∀ state', es.forM v.act state = .ok () state' → made = es := by
  induction es generalizing log state with
  | nil => exact ⟨[], List.prefix_refl _, by simp [logged]; rfl, fun _ _ => rfl⟩
  | cons e es ih =>
      simp only [forM_act_cons, act_logging]
      cases v.act e state with
      | ok u next =>
          obtain ⟨made, hmade, heq, hwhole⟩ := ih (log ++ [e]) next
          refine ⟨e :: made, by simpa using hmade, by simpa [logged] using heq, fun state' h => ?_⟩
          rw [hwhole state' h]
      | error err next =>
          exact ⟨[e], by simp, rfl, fun _ h => by cases h⟩

theorem Course.run_logging (v : Visitor σ) (c : Course) (log : List Event) (state : σ) :
    ∃ made, made <+: c.steps ∧ c.run v.logging (log, state) = logged (log ++ made) (c.run v state) ∧
      ∀ state', c.run v state = .ok () state' → made = c.steps ∧ c.stop = none := by
  obtain ⟨steps, stop⟩ := c
  obtain ⟨made, hmade, heq, hwhole⟩ := forM_logging v steps log state
  refine ⟨made, hmade, ?_⟩
  simp only [Course.run, bind, EStateM.bind, heq]
  cases hrun : steps.forM v.act state with
  | error err next => exact ⟨rfl, fun _ h => by cases h⟩
  | ok u next =>
      cases stop with
      | none => exact ⟨rfl, fun _ _ => ⟨hwhole next hrun, rfl⟩⟩
      | some err => exact ⟨rfl, fun _ h => by cases h⟩

/-- A log of the events of a tree that ends where the visitor fails or a block is missing. -/
theorem Sheet.Shows.walk_logging {s : Sheet} {t : Tree} (h : s.Shows t) (v : Visitor σ) (state : σ) :
    ∃ made, made <+: t.events ∧ t.walk v.logging ([], state) = logged made (t.walk v state) ∧
      ∀ state', t.walk v state = .ok () state' → made = t.events := by
  obtain ⟨made, hmade, heq, hwhole⟩ := t.course.run_logging v [] state
  simp only [Tree.walk_eq]
  refine ⟨made, hmade.trans h.through.steps, heq, fun state' hok => ?_⟩
  obtain ⟨hsteps, hstop⟩ := hwhole state' hok
  rw [hsteps, h.through.whole hstop]

end

/-! ## Traversals -/

namespace Sheet

/-- Whether a visitor with a log makes just this log on its walk from a node, and does else what it does
without one. -/
def Logs {σ : Type} (s : Sheet) (v : Visitor σ) (id : Nat) (state : σ) (log : List Event) : Prop :=
  s.walkFrom id v.logging ([], state) = logged log (s.walkFrom id v state)

/-- What holds of the traversals of a stylesheet from any node, with any visitor. -/
structure Traversable (s : Sheet) : Prop where
  /-- As many levels as there are nodes are enough for the way up. -/
  ancestors_ends (id : Nat) : bounded none s.ancestorsStep s.size id = some (s.ancestors id)
  print_ends (format : Format) (id : Nat) : s.boundedPrint format id = some (s.printFrom id format)
  walk_ends {σ : Type} (v : Visitor σ) (id : Nat) :
    bounded (throw none) (s.walkStep v) s.size id = (s.walkFrom id v).adaptExcept some
  exists_log {σ : Type} (v : Visitor σ) (id : Nat) (state : σ) : ∃ log, s.Logs v id state log
  /-- The parent of a node is the last one that was entered and not left. -/
  parent_of_enter {σ : Type} {v : Visitor σ} {id c : Nat} {state : σ} {pre post : List Event} {node : Node} :
    s.Logs v id state (pre ++ .enter c node :: post) → c ≠ id →
      ∃ p, (opened pre).head? = some p ∧ s.parent? c = some p
  nested_of_ok {σ : Type} {v : Visitor σ} {id : Nat} {state state' : σ} {log : List Event} :
    s.Logs v id state log → s.walkFrom id v state = .ok () state' → Nested log

variable {σ : Type} {s : Sheet}

theorem Logs.unique {v : Visitor σ} {id : Nat} {state : σ} {log log' : List Event}
    (h : s.Logs v id state log) (h' : s.Logs v id state log') : log = log' := by
  have heq := h.symm.trans h'
  cases hrun : s.walkFrom id v state <;> simp_all [logged]

/-- No node is entered if the walk starts at no node, and else the log is a part of the events of its tree. -/
theorem exists_logs (s : Sheet) (v : Visitor σ) (id : Nat) (state : σ) :
    ∃ log, s.Logs v id state log ∧
      (log = [] ∨ ∃ t, s.Shows t ∧ t.id = id ∧ log <+: t.events) ∧
      ∀ state', s.walkFrom id v state = .ok () state' → Nested log := by
  simp only [Logs, walkFrom]
  by_cases hid : id < s.size
  · have ht : s.Shows (s.treeAt id hid) := shows_treeAt id hid
    obtain ⟨made, hmade, heq, hwhole⟩ := ht.walk_logging v state
    simp only [tree?, dif_pos hid]
    refine ⟨made, heq, .inr ⟨_, ht, id_treeAt id hid, hmade⟩, fun state' hok => ?_⟩
    rw [hwhole state' hok]
    exact Tree.nested_events _
  · simp only [tree?, dif_neg hid]
    exact ⟨[], rfl, .inl rfl, fun _ h => by cases h⟩

theorem traversable (s : Sheet) : s.Traversable where
  ancestors_ends := s.bounded_ancestors
  print_ends := s.boundedPrint_eq
  walk_ends := s.bounded_walk
  exists_log v id state := by
    obtain ⟨log, h, _⟩ := s.exists_logs v id state
    exact ⟨log, h⟩
  parent_of_enter {_ v id c state pre post node} h hne := by
    obtain ⟨log, hlog, hpart, _⟩ := s.exists_logs v id state
    obtain rfl := hlog.unique h
    obtain hnil | ⟨t, ht, rfl, more, hmore⟩ := hpart
    · simp at hnil
    · have hevents : t.events = pre ++ .enter c node :: (post ++ more) := by
        rw [← hmore, List.append_assoc, List.cons_append]
      exact ht.exists_parent? hevents hne
  nested_of_ok {_ v id state state' log} h hok := by
    obtain ⟨log', hlog, _, hnested⟩ := s.exists_logs v id state
    obtain rfl := hlog.unique h
    exact hnested state' hok

/-- Whatever a caller hangs in a stylesheet and puts in the place of its nodes, every traversal ends and a walk
goes down from parents to what hangs on them. -/
theorem traversable_revise (revisions : List Revision) : (empty.revise revisions).Traversable :=
  traversable _

/-- A rule claims the root as its block, so that a walk stops there and does not go round. -/
theorem traversable_revise_rewired :
    let s := empty.revise [.edit (.rule 0 ".a"), .overwrite 1 (.rule ".a" (some 0))]
    s.Logs ⟨fun _ _ => pure (), fun _ _ => pure ()⟩ 0 ()
        [.enter 0 .stylesheet, .enter 1 (.rule ".a" (some 0))] ∧
      s.Traversable ∧ ∃ p, (opened [.enter 0 .stylesheet]).head? = some p ∧ s.parent? 1 = some p := by
  intro s
  have hrule : s.Shows (.mk 1 (.rule ".a" (some 0)) none []) :=
    .mk (by decide +kernel) (by decide +kernel) (by decide +kernel) (by simp) (by simp)
  have hroot : s.Shows (.mk 0 .stylesheet none [.mk 1 (.rule ".a" (some 0)) none []]) :=
    .mk (by decide +kernel) (by decide +kernel) (by decide +kernel) (by simp) (by simpa using hrule)
  have hlog : s.Logs ⟨fun _ _ => pure (), fun _ _ => pure ()⟩ 0 ()
      [.enter 0 .stylesheet, .enter 1 (.rule ".a" (some 0))] := by
    have htree : s.tree? 0 = some _ := hroot.tree?_eq
    simp only [Logs, walkFrom, htree]
    rfl
  have hparent : ∃ p, (opened [.enter 0 .stylesheet]).head? = some p ∧ s.parent? 1 = some p :=
    (traversable_revise _).parent_of_enter hlog (by decide)
  exact ⟨hlog, traversable_revise _, hparent⟩

end Sheet

end TieredStyle.Css
