import TieredStyle.Proofs.Tree.OfItems
import TieredStyle.Proofs.Tree.Walk

/-!
# Listings

A walk lists the nodes of a stylesheet with their depth. The listing tells the kind of each node, its texts
and whether it has a block, but not the numbers of the nodes.
-/
namespace TieredStyle.Css

/-- A node as a walk lists it: with a block or without one, whichever that is. -/
def Node.listed : Node → Node
  | .rule selector b => .rule selector (b.map fun _ => 0)
  | .atRule name params b => .atRule name params (b.map fun _ => 0)
  | node => node

/-- The nodes in document order, each with its depth. -/
def Sheet.listing (s : Sheet) : Except ShapeError (List (Nat × Node)) := do
  return (← s.outline).map fun (depth, node) => (depth, node.listed)

mutual
def Tree.lines (depth : Nat) : Tree → List (Nat × Node)
  | .mk _ node block children =>
    (depth, node.listed) :: (blockLines (depth + 1) block ++ linesAll (depth + 1) children)

def blockLines (depth : Nat) : Option Tree → List (Nat × Node)
  | none => []
  | some t => t.lines depth

def linesAll (depth : Nat) : List Tree → List (Nat × Node)
  | [] => []
  | t :: ts => t.lines depth ++ linesAll depth ts
end

namespace Sheet

variable {s : Sheet}

theorem ancestors_root {id : Nat} (h : s.parent? id = none) : s.ancestors id = [] := by
  rw [ancestors]
  split
  · rfl
  next hp =>
    rw [h] at hp
    cases hp

theorem ancestors_of_parent? {id p : Nat} (h : s.parent? id = some p) :
    s.ancestors id = p :: s.ancestors p := by
  rw [ancestors]
  split
  next hp =>
    rw [h] at hp
    cases hp
  next q hp =>
    rw [h] at hp
    cases hp
    rfl

theorem parent?_of_mem_children {id c : Nat} (h : c ∈ s.children id) : s.parent? c = some id := by
  rw [parent?, mem_children.1 h]
  rfl

theorem parent?_of_block? {id b : Nat} (h : s.block? id = some b) : s.parent? b = some id := by
  simp only [block?, Option.bind_eq_bind, Option.bind_eq_some_iff, Option.ite_none_right_eq_some,
    Option.some.injEq] at h
  obtain ⟨_, _, _, _, ⟨_, hp⟩, rfl⟩ := h
  exact hp

/-- What the listing gives for a node. -/
def line? (s : Sheet) (id : Nat) : Option (Nat × Node) :=
  (s.node? id).map fun node => ((s.ancestors id).length, node.listed)

theorem listing_eq (s : Sheet) :
    s.listing = (fun ids => ids.filterMap s.line?) <$> s.entered := by
  rw [listing, outline]
  cases s.entered with
  | error e => rfl
  | ok ids =>
      show Except.ok _ = Except.ok _
      rw [List.map_filterMap]
      congr 1
      refine List.filterMap_congr fun id _ => ?_
      rw [line?, Option.map_map]
      rfl

theorem filterMap_line?_allEvents {ts : List Tree} {depth : Nat}
    (h : ∀ t ∈ ts, (t.preorder.map Prod.fst).filterMap s.line? = t.lines depth) :
    (((allEvents ts).filterMap Event.entered).map Prod.fst).filterMap s.line? =
      linesAll depth ts := by
  induction ts with
  | nil => rfl
  | cons t ts ih =>
      rw [allEvents, List.filterMap_append, List.map_append, List.filterMap_append,
        ih fun u hu => h u (List.mem_cons_of_mem _ hu), linesAll, ← h t List.mem_cons_self]
      rfl

theorem Shows.filterMap_line? {t : Tree} (h : s.Shows t) {depth : Nat}
    (hd : (s.ancestors t.id).length = depth) :
    (t.preorder.map Prod.fst).filterMap s.line? = t.lines depth := by
  induction h generalizing depth with
  | @mk id node block children hn hb hc _ _ ihb ihc =>
      have hbelow : ∀ c, s.parent? c = some id → (s.ancestors c).length = depth + 1 := by
        intro c hp
        rw [ancestors_of_parent? hp, List.length_cons]
        exact congrArg Nat.succ hd
      have hblock : (((blockEvents block).filterMap Event.entered).map Prod.fst).filterMap s.line? =
          blockLines (depth + 1) block := by
        cases block with
        | none => rfl
        | some b => exact ihb b rfl (hbelow b.id (parent?_of_block? hb))
      have hchildren := filterMap_line?_allEvents fun c hmem => ihc c hmem <| by
        refine hbelow c.id (parent?_of_mem_children ?_)
        rw [hc]
        exact List.mem_map_of_mem hmem
      have hline : s.line? id = some (depth, node.listed) := by
        rw [line?, hn, ← hd]
        rfl
      simp only [Tree.preorder, Tree.events, List.filterMap_cons, List.filterMap_append,
        List.filterMap_nil, Event.entered, List.map_cons, List.map_append, hline, hblock, hchildren,
        List.append_nil, Tree.lines]

/-- The listing of a whole tree. -/
theorem listing_eq_lines (h : s.tree.Whole) : s.listing = .ok (s.tree.lines 0) := by
  have hroot : s.tree.id = root := id_treeAt root s.size_pos
  have hparent : s.parent? root = none := by
    cases hp : s.parent? root with
    | none => rfl
    | some p => exact absurd (parent_lt hp).1 (Nat.not_lt_zero p)
  rw [listing_eq, entered_eq h]
  refine congrArg Except.ok (shows_tree.filterMap_line? ?_)
  rw [hroot, ancestors_root hparent]
  rfl

end Sheet

/-! ## The listing of entries -/

theorem wholeAll_declarationTrees (next : Nat) (ds : List Declaration) :
    WholeAll (declarationTrees next ds) := by
  induction ds generalizing next with
  | nil => trivial
  | cons d ds ih => exact ⟨⟨rfl, trivial, trivial⟩, ih (next + 1)⟩

mutual
theorem Item.whole_tree (next : Nat) (item : Item) : (item.tree next).Whole := by
  match item with
  | .rule _ body =>
      rw [Item.tree]
      exact ⟨rfl, ⟨rfl, trivial, wholeAll_declarationTrees _ body⟩, trivial⟩
  | .statement .. =>
      rw [Item.tree]
      exact ⟨rfl, trivial, trivial⟩
  | .descriptors _ _ body =>
      rw [Item.tree]
      exact ⟨rfl, ⟨rfl, trivial, wholeAll_declarationTrees _ body⟩, trivial⟩
  | .group _ _ body =>
      rw [Item.tree]
      exact ⟨rfl, ⟨rfl, trivial, wholeAll_itemTrees _ body⟩, trivial⟩

theorem wholeAll_itemTrees (next : Nat) (items : List Item) : WholeAll (itemTrees next items) := by
  match items with
  | [] =>
      rw [itemTrees]
      trivial
  | item :: items =>
      rw [itemTrees]
      exact ⟨item.whole_tree next, wholeAll_itemTrees _ items⟩
end

theorem whole_ofItems (items : List Item) : (Sheet.ofItems items).tree.Whole := by
  rw [tree_ofItems]
  exact ⟨rfl, trivial, wholeAll_itemTrees 1 items⟩

end TieredStyle.Css
