import TieredStyle.Proofs.Tree.Found
import TieredStyle.Proofs.Tree.Located

/-!
# Declarations under the media that enclose them

The media in force at a node are followed along the walk and forgotten at the end of every `@media` rule.
Where no `@media` rule stands in another they are those of the nearest one above the node.
-/
namespace TieredStyle.Css

namespace Sheet

variable {s : Sheet}

/-- The parameters of the nearest `@media` rule above a node. -/
def enclosingMedia? (s : Sheet) (id : Nat) : Option String := (s.nodesAbove id).findSome? Node.media?

/-- The declaration at a node, if it lies in a rule, with what encloses it. -/
def enclosed? (s : Sheet) (id : Nat) : Option Located :=
  match s.node? id, s.enclosingSelector? id with
  | some (.declaration d), some selector =>
    some ⟨d, selector, s.enclosingMedia? id, PseudoState.ofSelector selector⟩
  | _, _ => none

/-- The declarations inside rules, in document order. -/
def enclosed (s : Sheet) : Except ShapeError (List Located) := do
  return (← s.entered).filterMap s.enclosed?

end Sheet

/-! ## Media beside each other -/

/-- No `@media` rule of the tree stands in another one, nor in one of the nodes above the tree. -/
abbrev Tree.Unnested : List Node → Tree → Prop :=
  Everywhere fun above t => t.node.media?.isSome = true → above.findSome? Node.media? = none

theorem Tree.Unnested.findSome?_eq_none {above : List Node} {t : Tree} (h : t.Unnested above)
    (ht : t.hasMedia = true) : above.findSome? Node.media? = none := by
  induction h with
  | @mk above id node block children hnode _ _ ihb ihc =>
      rw [Tree.hasMedia_mk, Bool.or_eq_true, List.any_eq_true] at ht
      rcases ht with ht | ⟨u, hu, hmedia⟩
      · exact hnode ht
      · have hnone : (node :: above).findSome? Node.media? = none := by
          rcases List.mem_append.1 hu with hu | hu
          · exact ihb u (Option.mem_toList.1 hu) hmedia
          · exact ihc u hu hmedia
        rw [List.findSome?_eq_none_iff] at hnone ⊢
        exact fun n hn => hnone n (List.mem_cons_of_mem _ hn)

/-- A walk through such a tree leaves the media in force as they are around it. -/
theorem Tree.Unnested.foldl_media {above : List Node} {t : Tree} (h : t.Unnested above) :
    t.events.foldl Event.media (above.findSome? Node.media?) = above.findSome? Node.media? := by
  rw [Tree.foldl_media]
  split
  next ht => exact (h.findSome?_eq_none ht).symm
  next => rfl

theorem visits_allEvents {m : Option String} {ts : List Tree}
    (h : ∀ t ∈ ts, t.events.foldl Event.media m = m) :
    visits m (allEvents ts) = ts.flatMap fun t => visits m t.events := by
  induction ts with
  | nil => rfl
  | cons t ts ih =>
      rw [allEvents, visits_append, h t List.mem_cons_self, ih fun u hu => h u (List.mem_cons_of_mem _ hu),
        List.flatMap_cons]

theorem Tree.events_mk (id : Nat) (node : Node) (block : Option Tree) (children : List Tree) :
    (mk id node block children).events =
      .enter id node :: (allEvents (block.toList ++ children) ++ [.leave id node]) := by
  rw [allEvents_append, events]
  cases block <;> simp [blockEvents, allEvents]

namespace Sheet

variable {s : Sheet}

/-- A node as a walk visits it where no `@media` rule stands in another. -/
def visitAt (s : Sheet) (p : Nat × Node) : Visit := ⟨p.2.media?.or (s.enclosingMedia? p.1), p.1, p.2⟩

theorem Coherent.visits_eq (hs : s.Coherent) {t : Tree} (ht : s.Shows t) {above : List Node}
    (h : t.Unnested above) (habove : s.nodesAbove t.id = above) :
    visits (above.findSome? Node.media?) t.events = t.preorder.map s.visitAt := by
  induction h with
  | @mk above id node block children _ hblock hchildren ihb ihc =>
      have hmedia : node.media?.or (above.findSome? Node.media?) =
          (node :: above).findSome? Node.media? := by
        rw [List.findSome?_cons]
        cases node.media? <;> rfl
      have hunnested : ∀ u ∈ block.toList ++ children, u.Unnested (node :: above) := by
        intro u hu
        rcases List.mem_append.1 hu with hu | hu
        · exact hblock u (Option.mem_toList.1 hu)
        · exact hchildren u hu
      have hvisits : ∀ u ∈ block.toList ++ children,
          visits ((node :: above).findSome? Node.media?) u.events = u.preorder.map s.visitAt := by
        intro u hu
        have hshows : s.Shows u := Coherent.shows_hanging ht hu
        have hparent := (hs.parent?_eq_some_iff ht u.id).2 ⟨u, hu, rfl⟩
        have hup : s.nodesAbove u.id = node :: above := by
          rw [nodesAbove_of_parent? hparent ht.node?_eq, habove]
          rfl
        rcases List.mem_append.1 hu with hu | hu
        · exact ihb u (Option.mem_toList.1 hu) hshows hup
        · exact ihc u hu hshows hup
      rw [Tree.events_mk, visits, visits_append, hmedia,
        visits_allEvents fun u hu => (hunnested u hu).foldl_media, List.flatMap_congr hvisits,
        Tree.preorder_mk, List.map_cons, List.map_flatMap, visits, visits, List.append_nil, ← hmedia]
      refine congrArg (· :: _) ?_
      rw [visitAt, enclosingMedia?, ← habove]
      rfl

/-- What a walk locates is what is enclosed. -/
theorem Coherent.enclosed_eq (hs : s.Coherent) (hunnested : s.tree.Unnested []) :
    s.enclosed = .ok ((visits none s.tree.events).filterMap s.locatedAt?) := by
  have hroot : s.tree.id = root := id_treeAt root s.size_pos
  have hvisits : visits none s.tree.events = s.tree.preorder.map s.visitAt := by
    refine hs.visits_eq s.shows_tree hunnested ?_
    rw [hroot, nodesAbove, ancestors_root (parent?_root s), List.filterMap_nil]
  rw [enclosed, hs.entered, hvisits, List.filterMap_map]
  refine congrArg Except.ok ?_
  rw [Tree.ids, List.filterMap_map]
  refine List.filterMap_congr fun p hp => ?_
  rw [Function.comp_apply, Function.comp_apply, enclosed?, s.shows_tree.node?_of_mem_preorder p hp]
  obtain ⟨id, node⟩ := p
  cases node <;> cases hselector : s.enclosingSelector? id <;>
    simp [locatedAt?, visitAt, hselector, Node.media?]

end Sheet

/-! ## Entries whose media are beside each other -/

theorem unnested_declarationTrees {above : List Node} {next : Nat} {ds : List Declaration} :
    ∀ t ∈ declarationTrees next ds, t.Unnested above := by
  induction ds generalizing next with
  | nil =>
      intro t ht
      cases ht
  | cons d ds ih =>
      intro t ht
      rcases List.mem_cons.1 ht with rfl | ht
      · exact .mk (fun h => by cases h) (fun t ht => by cases ht) (fun t ht => by cases ht)
      · exact ih t ht

theorem unnested_owning {above : List Node} {next : Nat} {node : Option Nat → Node} {children : List Tree}
    (hnode : (node (some (next + 1))).media?.isSome = true → above.findSome? Node.media? = none)
    (hall : ∀ t ∈ children, t.Unnested (.block :: node (some (next + 1)) :: above)) :
    (Tree.owning next node children).Unnested above := by
  refine .mk hnode ?_ (fun t ht => by cases ht)
  intro t ht
  cases ht
  exact .mk (fun h => by cases h) (fun t ht => by cases ht) hall

theorem unnested_itemTrees {above : List Node} {items : List Item}
    (h : ∀ item ∈ items, ∀ next, (item.tree next).Unnested above) (next : Nat) :
    ∀ t ∈ itemTrees next items, t.Unnested above := by
  induction items generalizing next with
  | nil =>
      rw [itemTrees]
      intro t ht
      cases ht
  | cons item items ih =>
      rw [itemTrees]
      intro t ht
      rcases List.mem_cons.1 ht with rfl | ht
      · exact h item List.mem_cons_self next
      · exact ih (fun item hitem => h item (List.mem_cons_of_mem _ hitem)) _ t ht

theorem unnested_rule {above : List Node} (selector : String) (body : List Declaration) (next : Nat) :
    ((Item.rule selector body).tree next).Unnested above := by
  rw [Item.tree]
  exact unnested_owning (fun h => by cases h) unnested_declarationTrees

/-- A group of rules in which none stands in an `@media` rule yet. -/
theorem unnested_group {above : List Node} {name params : String} {rules : List Item} (next : Nat)
    (habove : above.findSome? Node.media? = none)
    (hrules : ∀ item ∈ rules, ∃ selector body, item = .rule selector body) :
    ((Item.group name params rules).tree next).Unnested above := by
  rw [Item.tree]
  refine unnested_owning (fun _ => habove) (unnested_itemTrees ?_ _)
  intro item hitem next
  obtain ⟨selector, body, rfl⟩ := hrules item hitem
  exact unnested_rule selector body next

theorem Sheet.enclosed_ofItems {items : List Item}
    (h : ∀ item ∈ items, ∀ next, (item.tree next).Unnested [.stylesheet]) :
    (Sheet.ofItems items).enclosed = .ok ((itemRuled none 1 items).flatMap Ruled.located) := by
  have hunnested : (Sheet.ofItems items).tree.Unnested [] := by
    rw [tree_ofItems]
    exact .mk (fun h => by cases h) (fun t ht => by cases ht) (unnested_itemTrees h 1)
  rw [(coherent_ofItems items).enclosed_eq hunnested, filterMap_located_ofItems]

end TieredStyle.Css
