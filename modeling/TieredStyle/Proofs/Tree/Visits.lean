import TieredStyle.Proofs.Tree.Listing

/-!
# Visits under media

A fold under media goes through the nodes in document order and sees at each of them the `@media`
parameters in force there. The rules among these nodes are those of the entries.
-/
namespace TieredStyle.Css

/-! ## The nodes with their media -/

/-- A node that is entered, with the media in force. -/
structure Visit where
  media : Option String
  id : Nat
  node : Node

/-- The media in force after an event. -/
def Event.media (m : Option String) : Event → Option String
  | .enter _ node => node.media?.or m
  | .leave _ node => if node.media?.isSome then none else m

def visits (m : Option String) : List Event → List Visit
  | [] => []
  | .enter id node :: es => ⟨node.media?.or m, id, node⟩ :: visits (node.media?.or m) es
  | .leave _ node :: es => visits (if node.media?.isSome then none else m) es

theorem visits_append (m : Option String) (es es' : List Event) :
    visits m (es ++ es') = visits m es ++ visits (es.foldl Event.media m) es' := by
  induction es generalizing m with
  | nil => rfl
  | cons e es ih =>
      cases e with
      | enter id node =>
          rw [List.cons_append, visits, visits, ih]
          rfl
      | leave id node =>
          rw [List.cons_append, visits, visits, ih]
          rfl

section

variable {σ : Type} {f : Option String → Nat → Node → σ → Except ShapeError σ}

theorem step_media_enter (m : Option String) (acc : σ) (id : Nat) (node : Node) :
    (Sheet.mediaVisitor f).step ⟨m, acc⟩ (.enter id node) =
      (fun acc => ⟨node.media?.or m, acc⟩) <$> f (node.media?.or m) id node acc := by
  simp only [Visitor.step, Visitor.act, Sheet.mediaVisitor]
  cases node.media? with
  | none =>
      simp only [EStateM.run_bind, EStateM.run_get, Option.none_or]
      cases f m id node acc with
      | error e => rfl
      | ok acc => rfl
  | some params =>
      simp only [EStateM.run_bind, EStateM.run_modify, EStateM.run_get, Option.some_or]
      cases f (some params) id node acc with
      | error e => rfl
      | ok acc => rfl

theorem step_media_leave (m : Option String) (acc : σ) (id : Nat) (node : Node) :
    (Sheet.mediaVisitor f).step ⟨m, acc⟩ (.leave id node) =
      .ok ⟨if node.media?.isSome then none else m, acc⟩ := by
  simp only [Visitor.step, Visitor.act, Sheet.mediaVisitor]
  cases node.media? with
  | none => rfl
  | some params => rfl

theorem foldUnderMedia_eq {s : Sheet} (h : s.tree.Whole) (init : σ) :
    s.foldUnderMedia f init =
      (visits none s.tree.events).foldlM (fun acc v => f v.media v.id v.node acc) init := by
  rw [Sheet.foldUnderMedia, Sheet.visit_eq h]
  generalize none = m
  generalize s.tree.events = es
  induction es generalizing m init with
  | nil => rfl
  | cons e es ih =>
      cases e with
      | enter id node =>
          rw [List.foldlM_cons, visits, List.foldlM_cons, step_media_enter]
          cases hf : f (node.media?.or m) id node init with
          | error e => rfl
          | ok acc => exact ih acc (node.media?.or m)
      | leave id node =>
          rw [List.foldlM_cons, visits, step_media_leave]
          exact ih init _

/-- A fold that keeps the first find. -/
theorem foldlM_first {ε α : Type} {as : List α} (p : α → Bool) (g : α → Nat) (found : Option Nat) :
    as.foldlM (fun found a => (.ok (if found.isNone && p a then some (g a) else found) :
        Except ε (Option Nat))) found =
      .ok (found.or ((as.find? p).map g)) := by
  induction as generalizing found with
  | nil => cases found <;> rfl
  | cons a as ih =>
      rw [List.foldlM_cons]
      refine (ih _).trans ?_
      rw [List.find?_cons]
      cases found with
      | some id => rfl
      | none => cases p a <;> rfl

end

end TieredStyle.Css
