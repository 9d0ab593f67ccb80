import TieredStyle.Proofs.Tree.Entered

/-!
# Document order

The nodes of entries are numbered in the order in which they stand. So the nodes before a given one are those
with a smaller number.
-/
namespace TieredStyle.Css

/-- The nodes are numbered in document order. -/
def Tree.Ordered (t : Tree) : Prop := t.ids = List.range' t.id t.ids.length

theorem Tree.ids_owning (next : Nat) (node : Option Nat → Node) (children : List Tree) :
    (owning next node children).ids = next :: (next + 1) :: children.flatMap ids := by
  simp [owning, ids_mk]

theorem ids_declarationTrees (next : Nat) (ds : List Declaration) :
    (declarationTrees next ds).flatMap Tree.ids = List.range' next ds.length := by
  induction ds generalizing next with
  | nil => rfl
  | cons d ds ih => simp [declarationTrees, Tree.ids_mk, ih, List.range'_succ]

mutual
theorem Item.ids_tree (next : Nat) (item : Item) :
    (item.tree next).ids = List.range' next item.count := by
  match item with
  | .rule _ body => simp [Item.tree, Item.count, Tree.ids_owning, ids_declarationTrees, List.range'_succ]
  | .statement .. => simp [Item.tree, Item.count, Tree.ids_mk]
  | .descriptors _ _ body =>
      simp [Item.tree, Item.count, Tree.ids_owning, ids_declarationTrees, List.range'_succ]
  | .group _ _ body =>
      simp [Item.tree, Item.count, Tree.ids_owning, ids_itemTrees (next + 2) body, List.range'_succ]

theorem ids_itemTrees (next : Nat) (items : List Item) :
    (itemTrees next items).flatMap Tree.ids = List.range' next (itemCount items) := by
  match items with
  | [] => simp [itemTrees, itemCount]
  | item :: items =>
      simp [itemTrees, itemCount, item.ids_tree next, ids_itemTrees (next + item.count) items]
end

/-- What hangs on a node is in order as well, and the nodes in between are those of the trees before it. -/
theorem Tree.Ordered.of_hanging {id : Nat} {node : Node} {block : Option Tree} {children l r : List Tree}
    {u : Tree} (h : (mk id node block children).Ordered) (hu : block.toList ++ children = l ++ u :: r) :
    u.Ordered ∧ ∀ c, c ∈ l.flatMap ids ↔ id < c ∧ c < u.id := by
  obtain ⟨rest, hrest⟩ : ∃ rest, u.ids = u.id :: rest := by
    cases u
    exact ⟨_, ids_mk ..⟩
  rw [Ordered, ids_mk, hu, List.flatMap_append, List.flatMap_cons] at h
  obtain ⟨_, _, h⟩ := List.range'_eq_cons_iff.1 h.symm
  obtain ⟨k, _, hl, h⟩ := List.range'_eq_append_iff.1 h.symm
  obtain ⟨n, _, hids, _⟩ := List.range'_eq_append_iff.1 h.symm
  rw [Nat.mul_one] at hids
  have hid : u.id = id + 1 + k := by
    rw [hrest] at hids
    exact (List.range'_eq_cons_iff.1 hids.symm).1.symm
  refine ⟨?_, fun c => ?_⟩
  · rw [Ordered, hid, hids, List.length_range']
  · rw [hl, List.mem_range'_1, hid]
    omega

theorem Sheet.ordered_ofItems (items : List Item) :
    (Sheet.ofItems items).tree.Ordered ∧ (Sheet.ofItems items).tree.ids = List.range (Sheet.ofItems items).size := by
  have hids : (Sheet.ofItems items).tree.ids = List.range' 0 (1 + itemCount items) := by
    simp [tree_ofItems, Tree.ids_mk, ids_itemTrees, ← List.range'_append]
  have hsize : (Sheet.ofItems items).size = 1 + itemCount items := by
    rw [← List.length_range (n := Sheet.size _), ← (Sheet.coherent_ofItems items).perm_ids.length_eq, hids,
      List.length_range']
  refine ⟨?_, ?_⟩
  · rw [Tree.Ordered, hids, List.length_range', tree_ofItems]
    rfl
  · rw [hids, hsize, List.range_eq_range']

end TieredStyle.Css
