import TieredStyle.Proofs.Tree.Ruled
import TieredStyle.Proofs.Tree.Shaped

/-!
# Declarations at their places

Locating declarations goes through the nodes and asks at each declaration for the nearest rule above it. In
a stylesheet of entries this gives the declarations of the rules, rule after rule.
-/
namespace TieredStyle.Css

def Node.selector? : Node → Option String
  | .rule selector _ => some selector
  | _ => none

namespace Sheet

variable {s : Sheet}

/-! ## The nearest rule -/

theorem enclosingSelector?_eq (s : Sheet) (id : Nat) :
    s.enclosingSelector? id = (s.nodesAbove id).findSome? Node.selector? := by
  rw [enclosingSelector?, nodesAbove, ← List.head?_filterMap (f := Node.selector?),
    List.filterMap_filterMap, List.head?_filterMap]
  congr 1
  funext a
  cases s.node? a with
  | none => rfl
  | some node => cases node <;> rfl

theorem enclosingSelector?_of_parent? {id p : Nat} {node : Node} (hp : s.parent? id = some p)
    (hn : s.node? p = some node) :
    s.enclosingSelector? id = node.selector?.or (s.enclosingSelector? p) := by
  rw [enclosingSelector?_eq, enclosingSelector?_eq, nodesAbove_of_parent? hp hn, List.findSome?_cons]
  cases node.selector? <;> rfl

/-- What hangs on the block of a node lies in that node and in nothing else that this one does not lie in. -/
theorem Shows.enclosingSelector?_owning {next : Nat} {node : Option Nat → Node} {children : List Tree}
    (h : s.Shows (.owning next node children)) {t : Tree} (ht : t ∈ children) :
    s.enclosingSelector? t.id = (node (some (next + 1))).selector?.or (s.enclosingSelector? next) := by
  cases h with
  | mk hn hb _ hblock _ =>
      cases hblock _ rfl with
      | mk hn' _ hc' _ _ =>
          have hblockParent : s.parent? (next + 1) = some next := parent?_of_block? hb
          have hparent : s.parent? t.id = some (next + 1) := by
            refine parent?_of_mem_children ?_
            rw [hc']
            exact List.mem_map_of_mem ht
          rw [enclosingSelector?_of_parent? hparent hn', enclosingSelector?_of_parent? hblockParent hn]
          rfl

/-! ## Locating as a search through the visits -/

/-- The declaration that is visited, if it lies in a rule. -/
def locatedAt? (s : Sheet) (v : Visit) : Option Located :=
  match v.node, s.enclosingSelector? v.id with
  | .declaration d, some selector => some ⟨d, selector, v.media, PseudoState.ofSelector selector⟩
  | _, _ => none

theorem locatedAt?_of_kind {v : Visit} (h : v.node.kind ≠ .declaration) : s.locatedAt? v = none := by
  cases hv : v.node <;> simp [locatedAt?, hv, Node.kind] at h ⊢

theorem foldlM_admitted {ε α β : Type} (g : β → Option α) (p : α → Bool) (vs : List β) (found : List α) :
    vs.foldlM (fun found v => (.ok (match g v with
        | some a => if p a then a :: found else found
        | none => found) : Except ε (List α))) found =
      .ok (((vs.filterMap g).filter p).reverse ++ found) := by
  induction vs generalizing found with
  | nil => rfl
  | cons v vs ih =>
      rw [List.foldlM_cons]
      refine (ih _).trans ?_
      cases hg : g v with
      | none => rw [List.filterMap_cons_none hg]
      | some a =>
          rw [List.filterMap_cons_some hg, List.filter_cons]
          cases hp : p a <;> simp [hp]

theorem locate_eq (h : s.tree.Whole) {f : Filter} {media : Option String}
    (hmedia : (f.media.mapM fun params => reading (readParams params)) = .ok media) :
    s.locate f = .ok (((visits none s.tree.events).filterMap s.locatedAt?).filter
      { f with media }.admits) := by
  have hfold : s.foldUnderMedia (fun media' id node found =>
      match node, s.enclosingSelector? id with
      | .declaration d, some selector =>
        let l : Located := ⟨d, selector, media', PseudoState.ofSelector selector⟩
        .ok (if { f with media }.admits l then l :: found else found)
      | _, _ => .ok found) [] =
        .ok (((visits none s.tree.events).filterMap s.locatedAt?).filter
          { f with media }.admits).reverse := by
    rw [foldUnderMedia_eq h, ← List.append_nil (List.reverse _), ← foldlM_admitted]
    congr 1
    funext found v
    cases hv : v.node <;> cases hs : s.enclosingSelector? v.id <;> simp [locatedAt?, hv, hs]
  rw [locate, hmedia]
  refine (congrArg (fun x => shaping x >>= fun reversed => .ok reversed.reverse) hfold).trans ?_
  exact congrArg Except.ok (List.reverse_reverse _)

end Sheet

/-! ## The declarations of entries -/

/-- The declarations of a rule, located. -/
def Ruled.located (r : Ruled) : List Located :=
  r.body.map fun d => ⟨d, r.selector, r.media, PseudoState.ofSelector r.selector⟩

theorem visits_owning (m : Option String) (next : Nat) (node : Option Nat → Node) (children : List Tree) :
    visits m (Tree.owning next node children).events =
      ⟨(node (some (next + 1))).media?.or m, next, node (some (next + 1))⟩ ::
        ⟨(node (some (next + 1))).media?.or m, next + 1, .block⟩ ::
          visits ((node (some (next + 1))).media?.or m) (allEvents children) := by
  rw [Tree.events_owning, visits, visits, visits_append]
  simp only [visits, List.append_nil]
  rfl

namespace Sheet

variable {s : Sheet} {m : Option String}

theorem filterMap_located_owning {next : Nat} {node : Option Nat → Node}
    (hnode : ∀ b, (node b).kind ≠ .declaration) (children : List Tree) :
    (visits m (Tree.owning next node children).events).filterMap s.locatedAt? =
      (visits ((node (some (next + 1))).media?.or m) (allEvents children)).filterMap s.locatedAt? := by
  rw [visits_owning, List.filterMap_cons_none, List.filterMap_cons_none]
  · exact locatedAt?_of_kind (by simp [Node.kind])
  · exact locatedAt?_of_kind (hnode _)

theorem filterMap_located_declarations {next : Nat} {ds : List Declaration} {selector : Option String}
    (h : ∀ t ∈ declarationTrees next ds, s.enclosingSelector? t.id = selector) :
    (visits m (allEvents (declarationTrees next ds))).filterMap s.locatedAt? =
      selector.elim [] fun σ => ds.map fun d => ⟨d, σ, m, PseudoState.ofSelector σ⟩ := by
  induction ds generalizing next with
  | nil => cases selector <;> rfl
  | cons d ds ih =>
      have hd : s.enclosingSelector? next = selector := h _ List.mem_cons_self
      have hvisits : visits m (allEvents (declarationTrees next (d :: ds))) =
          ⟨m, next, .declaration d⟩ :: visits m (allEvents (declarationTrees (next + 1) ds)) := rfl
      rw [hvisits, List.filterMap_cons, ih fun t ht => h t (List.mem_cons_of_mem _ ht), locatedAt?, hd]
      cases selector <;> rfl

end Sheet

open Sheet in
mutual
/-- Located are the declarations of the rules of an entry. -/
theorem Item.located_tree {s : Sheet} (m : Option String) (next : Nat) (item : Item)
    (h : s.Shows (item.tree next)) (hnone : s.enclosingSelector? next = none) :
    (visits m (item.tree next).events).filterMap s.locatedAt? =
      (item.ruled m next).flatMap Ruled.located := by
  match item with
  | .rule selector body =>
      rw [Item.tree] at h ⊢
      have hbody := fun t => h.enclosingSelector?_owning (t := t)
      rw [hnone] at hbody
      rw [filterMap_located_owning (fun _ => by simp [Node.kind]), filterMap_located_declarations hbody,
        Item.ruled, List.flatMap_singleton]
      rfl
  | .statement name params =>
      rw [Item.tree, Item.ruled]
      simp [Tree.events, blockEvents, allEvents, visits, locatedAt?]
  | .descriptors name params body =>
      rw [Item.tree] at h ⊢
      have hbody := fun t => h.enclosingSelector?_owning (t := t)
      rw [hnone] at hbody
      rw [filterMap_located_owning (fun _ => by simp [Node.kind]), filterMap_located_declarations hbody,
        Item.ruled]
      rfl
  | .group name params body =>
      rw [Item.tree] at h ⊢
      have hbody := fun t => h.enclosingSelector?_owning (t := t)
      rw [hnone] at hbody
      rw [filterMap_located_owning (fun _ => by simp [Node.kind]), Item.ruled, media?_or_atRule]
      exact located_itemTrees _ (next + 2) body h.children_owning.2 hbody

theorem located_itemTrees {s : Sheet} (m : Option String) (next : Nat) (items : List Item)
    (h : ∀ t ∈ itemTrees next items, s.Shows t)
    (hnone : ∀ t ∈ itemTrees next items, s.enclosingSelector? t.id = none) :
    (visits m (allEvents (itemTrees next items))).filterMap s.locatedAt? =
      (itemRuled m next items).flatMap Ruled.located := by
  match items with
  | [] =>
      rw [itemTrees, itemRuled]
      rfl
  | item :: items =>
      rw [itemTrees] at h hnone ⊢
      have hitem := hnone _ List.mem_cons_self
      rw [item.id_tree] at hitem
      rw [allEvents, visits_append, (item.seen_tree m next).2, List.filterMap_append,
        item.located_tree m next (h _ List.mem_cons_self) hitem,
        located_itemTrees _ (next + item.count) items (fun t ht => h t (List.mem_cons_of_mem _ ht))
          (fun t ht => hnone t (List.mem_cons_of_mem _ ht)), itemRuled, List.flatMap_append]
end

/-- What a walk locates in a stylesheet of entries. -/
theorem Sheet.filterMap_located_ofItems (items : List Item) :
    (visits none (Sheet.ofItems items).tree.events).filterMap (Sheet.ofItems items).locatedAt? =
      (itemRuled none 1 items).flatMap Ruled.located := by
  have hvisits : visits none (Sheet.ofItems items).tree.events =
      ⟨none, root, .stylesheet⟩ :: visits none (allEvents (itemTrees 1 items)) := by
    rw [tree_ofItems, Tree.events, visits, visits_append, visits_append]
    simp [blockEvents, visits, Node.media?, root]
  have hshows := (Sheet.ofItems items).shows_tree
  rw [tree_ofItems] at hshows
  cases hshows with
  | mk hn _ hc _ hchildren =>
      have hnone : ∀ t ∈ itemTrees 1 items, (Sheet.ofItems items).enclosingSelector? t.id = none := by
        intro t ht
        have hparent : (Sheet.ofItems items).parent? t.id = some root := by
          refine parent?_of_mem_children ?_
          exact hc ▸ List.mem_map_of_mem ht
        rw [enclosingSelector?_of_parent? hparent hn, enclosingSelector?_eq, nodesAbove,
          ancestors_root (parent?_root _)]
        rfl
      rw [hvisits, List.filterMap_cons_none (locatedAt?_of_kind (by simp [Node.kind])),
        located_itemTrees none 1 items hchildren hnone]

/-- The declarations that a filter takes are those of the rules of the entries. -/
theorem Sheet.locate_ofItems (items : List Item) {f : Filter} {media : Option String}
    (hmedia : (f.media.mapM fun params => reading (readParams params)) = .ok media) :
    (Sheet.ofItems items).locate f =
      .ok (((itemRuled none 1 items).flatMap Ruled.located).filter { f with media }.admits) := by
  rw [locate_eq (whole_ofItems items) hmedia, filterMap_located_ofItems]

end TieredStyle.Css
