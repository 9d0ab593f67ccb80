import Mathlib.Logic.Relation
import TieredStyle.Css.Update
import TieredStyle.Proofs.Tree.Entered
import TieredStyle.Style.Projection

/-!
# Runs of edits

However a stylesheet is grown and changed, a node is hung with its block or without one, or a declaration
gets another content, and nothing else happens. So the nodes stay a tree, and what is among the children of
a node stays there, in front of what comes later.
-/
namespace TieredStyle.Css

/-! ## What an edit does -/

namespace Sheet

/-- The least an edit can do. -/
inductive Alters : Sheet → Sheet → Prop
  | child {s : Sheet} {node x : Node} {c : Nat} (h : (Place.child c).Fits s.size) :
      node.block? = none → s.node? c = some x → x.isContainer = true →
      Alters s (s.push node (.child c) h)
  | owning {s : Sheet} {node x : Node} {c : Nat} (h : (Place.child c).Fits s.size)
      (h' : (Place.block s.size).Fits (s.push node (.child c) h).size) :
      node.block? = some (s.size + 1) → s.node? c = some x → x.isContainer = true →
      Alters s ((s.push node (.child c) h).push .block (.block s.size) h')
  | declare {s s' : Sheet} {c : Nat} {d e : Declaration} : s.node? c = some (.declaration e) →
      s.replace? c (.declaration d) = some s' → Alters s s'

/-- Any number of these, one after the other. -/
abbrev Reaches : Sheet → Sheet → Prop := Relation.ReflTransGen Alters

variable {s s' : Sheet}

/-! ## What appends and updates leave -/

namespace Program

theorem reaches_append (s : Sheet) (into : Nat) (node : Node) :
    s.Reaches (stateAfter (Program.append into node s)) := by
  rw [append_eq]
  cases hcontainer : s.container into with
  | error e => exact .refl
  | ok c =>
      obtain ⟨c, hlt⟩ := c
      obtain ⟨rfl, x, hx, hc⟩ := container_eq_ok hcontainer
      simp only
      split
      next => exact .refl
      next hnode =>
        simp only [Bool.or_eq_true, not_or, Option.not_isSome_iff_eq_none] at hnode
        exact .single (.child hlt hnode.2 hx hc)

theorem reaches_appendWithBlock (s : Sheet) (into : Nat) {make : Option Nat → Node}
    (hmake : ∀ b, (make b).block? = b) : s.Reaches (stateAfter (Program.appendWithBlock into make s)) := by
  rw [appendWithBlock_eq]
  cases hcontainer : s.container into with
  | error e => exact .refl
  | ok c =>
      obtain ⟨c, hlt⟩ := c
      obtain ⟨rfl, x, hx, hc⟩ := container_eq_ok hcontainer
      exact .single (.owning hlt (s.lt_size_push ..) (hmake _) hx hc)

theorem reaches_appendRule (s : Sheet) (into : Nat) (selector : String) :
    s.Reaches (stateAfter (Program.appendRule into selector s)) :=
  reaches_appendWithBlock s into fun _ => rfl

theorem reaches_appendAtRule (s : Sheet) (into : Nat) (name params : String) :
    s.Reaches (stateAfter (Program.appendAtRule into name params s)) :=
  reaches_appendWithBlock s into fun _ => rfl

/-- The rule is there also if no block of it were found. -/
theorem reaches_appendMedia (s : Sheet) (into : Nat) (params : String) :
    s.Reaches (stateAfter (Program.appendMedia into params s)) := by
  have hreaches := reaches_appendAtRule s into "media" params
  rw [Program.appendMedia]
  cases hrun : Program.appendAtRule into "media" params s with
  | error e t =>
      rw [run_bind_error hrun]
      rwa [hrun] at hreaches
  | ok media t =>
      rw [run_bind hrun, run_get_bind]
      rw [hrun] at hreaches
      cases t.blockOf media <;> exact hreaches

end Program

theorem reaches_of_outcome {α : Type} {r : EStateM.Result ShapeError Sheet α} {a : α}
    (hr : s.Reaches (stateAfter r)) (h : outcome r = .ok (a, s')) : s.Reaches s' := by
  cases r with
  | ok b t =>
      cases h
      exact hr
  | error e t => cases h

/-- What a program gives and how it reports an error are nothing to the stylesheet. -/
theorem reaches_discard {p : Program Nat} (h : s.Reaches (stateAfter (p s))) :
    s.Reaches (stateAfter (discard (p.adaptExcept Error.shape) s)) := by
  rwa [stateAfter_discard, stateAfter_adaptExcept]

theorem reaches_declareIn {block : Nat} {d : Declaration} (h : s.declareIn block d = .ok s') :
    s.Reaches s' := by
  rw [declareIn] at h
  split at h
  next c hc =>
    have hsame := List.find?_some hc
    split at hsame
    next e hold =>
      cases hs : s.replace? c (.declaration d) with
      | none =>
          rw [hs] at h
          cases h
          exact .refl
      | some t =>
          rw [hs] at h
          cases h
          exact .single (.declare hold hs)
    next => cases hsame
  next =>
    obtain ⟨⟨id, t⟩, ht, h⟩ := bind_eq_ok.1 h
    cases h
    exact reaches_of_outcome (Program.reaches_append ..) ht

theorem reaches_mediaContainer {media : Option String} {c : Nat}
    (h : s.mediaContainer media = .ok (c, s')) : s.Reaches s' := by
  cases media with
  | none =>
      cases h
      exact .refl
  | some params =>
      rw [mediaContainer] at h
      split at h
      next m hm =>
        obtain ⟨b, _, h⟩ := bind_eq_ok.1 h
        cases h
        exact .refl
      next => exact reaches_of_outcome (Program.reaches_appendMedia ..) h

theorem reaches_declareRule {selector : String} {media : Option String} {d : Declaration}
    (h : s.declareRule selector media d = .ok s') : s.Reaches s' := by
  obtain ⟨⟨c, t⟩, ht, h⟩ := bind_eq_ok.1 h
  obtain ⟨⟨rule, u⟩, hu, h⟩ := bind_eq_ok.1 h
  obtain ⟨b, _, h⟩ := bind_eq_ok.1 h
  obtain ⟨⟨id, v⟩, hv, h⟩ := bind_eq_ok.1 h
  cases h
  have hrule : t.Reaches u := reaches_of_outcome (Program.reaches_appendRule ..) hu
  have hdeclaration : u.Reaches v := reaches_of_outcome (Program.reaches_append ..) hv
  exact ((reaches_mediaContainer ht).trans hrule).trans hdeclaration

theorem shaping_eq_ok {α : Type} {x : Except ShapeError α} {a : α} : shaping x = .ok a ↔ x = .ok a := by
  cases x <;> simp [shaping, Except.mapError]

theorem reaches_update {property value : String} {t : Target}
    (h : s.update property value t = .ok s') : s.Reaches s' := by
  obtain ⟨d, _, h⟩ := bind_eq_ok.1 h
  obtain ⟨selector, _, h⟩ := bind_eq_ok.1 h
  obtain ⟨media, _, h⟩ := bind_eq_ok.1 h
  obtain ⟨rule?, _, h⟩ := bind_eq_ok.1 h
  cases rule? with
  | none => exact reaches_declareRule (shaping_eq_ok.1 h)
  | some rule =>
      obtain ⟨b, _, h⟩ := bind_eq_ok.1 (shaping_eq_ok.1 h)
      exact reaches_declareIn h

/-! ## What edits keep -/

theorem Alters.coherent (h : s.Alters s') (hs : s.Coherent) : s'.Coherent := by
  cases h with
  | child h hnode hx hc => exact hs.push_child hnode hx hc h
  | owning h h' hnode hx hc => exact hs.push_owning hnode hx hc h h'
  | declare hold h => exact hs.replace hold h

theorem Reaches.coherent (h : s.Reaches s') (hs : s.Coherent) : s'.Coherent := by
  induction h with
  | refl => exact hs
  | tail _ h ih => exact h.coherent ih

theorem children_push_mono {node : Node} {place : Place} (h : place.Fits s.size) (id : Nat) :
    s.children id <+: (s.push node place h).children id := by
  rw [children_push]
  split
  · exact List.prefix_append _ _
  · exact List.prefix_refl _

theorem Alters.children_mono (h : s.Alters s') (id : Nat) : s.children id <+: s'.children id := by
  cases h with
  | child h => exact children_push_mono h id
  | owning h h' => exact (children_push_mono h id).trans (children_push_mono h' id)
  | declare _ h => exact (children_replace? h id).symm ▸ List.prefix_refl _

theorem Reaches.children_mono (h : s.Reaches s') (id : Nat) : s.children id <+: s'.children id := by
  induction h with
  | refl => exact List.prefix_refl _
  | tail _ h ih => exact ih.trans (h.children_mono id)

end Sheet

/-! ## Runs -/

/-- A change of a stylesheet that a caller can ask for. -/
inductive Edit
  | append (into : Nat) (node : Node)
  | rule (into : Nat) (selector : String)
  | atRule (into : Nat) (name params : String)
  | media (into : Nat) (params : String)
  | update (property value : String) (target : Target)

namespace Edit

/-- An update changes a copy, which takes the place of the stylesheet if nothing fails. -/
def program : Edit → EStateM Error Sheet Unit
  | append into node => discard ((Sheet.Program.append into node).adaptExcept .shape)
  | rule into selector => discard ((Sheet.Program.appendRule into selector).adaptExcept .shape)
  | atRule into name params => discard ((Sheet.Program.appendAtRule into name params).adaptExcept .shape)
  | media into params => discard ((Sheet.Program.appendMedia into params).adaptExcept .shape)
  | update property value target => do set (← liftExcept ((← get).update property value target))

/-- What the stylesheet is afterwards, whether or not the edit fails. -/
def after (s : Sheet) (e : Edit) : Sheet := stateAfter (e.program s)

theorem reaches_after (s : Sheet) (e : Edit) : s.Reaches (e.after s) := by
  cases e with
  | append into node => exact Sheet.reaches_discard (Sheet.Program.reaches_append s into node)
  | rule into selector => exact Sheet.reaches_discard (Sheet.Program.reaches_appendRule s into selector)
  | atRule into name params => exact Sheet.reaches_discard (Sheet.Program.reaches_appendAtRule s into name params)
  | media into params => exact Sheet.reaches_discard (Sheet.Program.reaches_appendMedia s into params)
  | update property value target =>
      rw [after, program, run_get_bind]
      cases h : s.update property value target with
      | error e => exact .refl
      | ok s' => exact Sheet.reaches_update h

end Edit

namespace Sheet

def run (s : Sheet) (edits : List Edit) : Sheet := edits.foldl Edit.after s

theorem reaches_run (s : Sheet) (edits : List Edit) : s.Reaches (s.run edits) := by
  induction edits generalizing s with
  | nil => exact .refl
  | cons e edits ih => exact (e.reaches_after s).trans (ih (e.after s))

/-- An empty stylesheet, one that is read, or one for a style. -/
inductive Initial : Sheet → Prop
  | empty : Initial .empty
  | read {css : String} {s : Sheet} : read css = .ok s → Initial s
  | projected {style : Style} {selector : String} {s : Sheet} :
      style.toSheet selector = .ok s → Initial s

theorem Initial.coherent {s : Sheet} (h : s.Initial) : s.Coherent := by
  cases h with
  | empty => exact coherent_empty
  | read h =>
      obtain ⟨items, _, h⟩ := bind_eq_ok.1 h
      cases h
      exact coherent_ofItems items
  | projected h =>
      obtain ⟨items, _, h⟩ := bind_eq_ok.1 h
      cases h
      exact coherent_ofItems items

/-- Edits keep the nodes a tree, and a node that they hang on another comes behind those that hang there
already. -/
theorem isTree_run {s : Sheet} (h : s.Initial) (edits more : List Edit) :
    (s.run edits).IsTree ∧
      ∀ id, (s.run edits).children id <+: ((s.run edits).run more).children id := by
  have hcoherent : (s.run edits).Coherent := (s.reaches_run edits).coherent h.coherent
  refine ⟨hcoherent.isTree, fun id => ?_⟩
  exact ((s.run edits).reaches_run more).children_mono id

/-- The second edit fails, since a declaration is no container. -/
theorem isTree_run_media : ∃ s, Sheet.read ".a\x7bcolor:red\x7d@media x\x7b.b\x7bmargin:0\x7d\x7d" = .ok s ∧
    s.size = 9 ∧
    let edited := s.run [.update "color" "blue" { selector := ".b", media := some "x" },
      .append 3 (.declaration ⟨"width", ⟨"0", false⟩⟩), .media 0 "y"]
    edited.size = 12 ∧ edited.IsTree ∧
      ∀ id, edited.children id <+: (edited.run [.rule 11 ".c"]).children id := by
  have hread : Sheet.read ".a\x7bcolor:red\x7d@media x\x7b.b\x7bmargin:0\x7d\x7d" =
      .ok (.ofItems [.rule ".a" [⟨"color", ⟨"red", false⟩⟩],
        .group "media" "x" [.rule ".b" [⟨"margin", ⟨"0", false⟩⟩]]]) := by decide +kernel
  exact ⟨_, hread, by decide +kernel, by decide +kernel, isTree_run (.read hread) _ _⟩

end Sheet
end TieredStyle.Css
