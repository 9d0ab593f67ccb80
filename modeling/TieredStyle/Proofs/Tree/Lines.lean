import TieredStyle.Proofs.Grammar.Derivation
import TieredStyle.Proofs.Tree.Listing

/-!
# Entries are told apart by their listing

The lines of an entry have a depth each, so the lines of a block end where the depth goes back. Two lists
of entries with the same lines are the same, provided that the name of each at-rule says what its block
holds.
-/
namespace TieredStyle.Css

/-! ## The lines of entries -/

def declarationLines (depth : Nat) (ds : List Declaration) : List (Nat × Node) :=
  ds.map fun d => (depth, .declaration d)

mutual
def Item.lines (depth : Nat) : Item → List (Nat × Node)
  | .rule selector body =>
    (depth, .rule selector (some 0)) :: (depth + 1, .block) :: declarationLines (depth + 2) body
  | .statement name params => [(depth, .atRule name params none)]
  | .descriptors name params body =>
    (depth, .atRule name params (some 0)) :: (depth + 1, .block) ::
      declarationLines (depth + 2) body
  | .group name params body =>
    (depth, .atRule name params (some 0)) :: (depth + 1, .block) :: itemLines (depth + 2) body

def itemLines (depth : Nat) : List Item → List (Nat × Node)
  | [] => []
  | item :: items => item.lines depth ++ itemLines depth items
end

theorem linesAll_declarationTrees (depth next : Nat) (ds : List Declaration) :
    linesAll depth (declarationTrees next ds) = declarationLines depth ds := by
  induction ds generalizing next with
  | nil => rfl
  | cons d ds ih =>
      simp [declarationTrees, linesAll, Tree.lines, blockLines, Node.listed, ih, declarationLines]

theorem Tree.lines_owning {node : Option Nat → Node} (hn : ∀ b, (node (some b)).listed = node (some 0))
    (depth next : Nat) (children : List Tree) :
    (Tree.owning next node children).lines depth =
      (depth, node (some 0)) :: (depth + 1, .block) :: linesAll (depth + 2) children := by
  simp [owning, lines, blockLines, linesAll, hn]
  rfl

mutual
theorem Item.lines_tree (depth next : Nat) (item : Item) :
    (item.tree next).lines depth = item.lines depth := by
  match item with
  | .rule selector body =>
      rw [Item.tree, Tree.lines_owning fun _ => rfl, linesAll_declarationTrees, Item.lines]
  | .statement name params =>
      rw [Item.tree, Item.lines]
      rfl
  | .descriptors name params body =>
      rw [Item.tree, Tree.lines_owning fun _ => rfl, linesAll_declarationTrees, Item.lines]
  | .group name params body =>
      rw [Item.tree, Tree.lines_owning fun _ => rfl, linesAll_itemTrees (depth + 2) (next + 2) body,
        Item.lines]

theorem linesAll_itemTrees (depth next : Nat) (items : List Item) :
    linesAll depth (itemTrees next items) = itemLines depth items := by
  match items with
  | [] =>
      rw [itemTrees, itemLines]
      rfl
  | item :: items =>
      rw [itemTrees, linesAll, item.lines_tree depth next,
        linesAll_itemTrees depth (next + item.count) items, itemLines]
end

theorem Sheet.listing_ofItems (items : List Item) :
    (ofItems items).listing = .ok ((0, .stylesheet) :: itemLines 1 items) := by
  rw [listing_eq_lines (whole_ofItems items), tree_ofItems, Tree.lines, linesAll_itemTrees]
  rfl

/-! ## Telling entries apart -/

mutual
/-- The name of an at-rule with a block says what the block holds. -/
def Item.WellNamed : Item → Prop
  | .rule .. | .statement .. => True
  | .descriptors name _ _ => holdsItems name = false
  | .group name _ body => holdsItems name = true ∧ ItemsWellNamed body

def ItemsWellNamed : List Item → Prop
  | [] => True
  | item :: items => item.WellNamed ∧ ItemsWellNamed items
end

theorem ItemsRead.wellNamed {depth : Nat} {ts rest : List Token} {items : List Item}
    (h : ItemsRead depth ts items rest) : ItemsWellNamed items := by
  induction h with
  | finish => trivial
  | close => trivial
  | skip _ _ ih => exact ih
  | rule _ _ _ _ _ _ ih => exact ⟨trivial, ih⟩
  | statement _ _ _ _ ih => exact ⟨trivial, ih⟩
  | descriptors _ hn _ _ _ _ ih => exact ⟨hn, ih⟩
  | group _ hn _ _ _ _ _ ihbody ih => exact ⟨⟨hn, ihbody⟩, ih⟩

/-- No line, or one above the depth. -/
def Above (depth : Nat) (x : List (Nat × Node)) : Prop := ∀ l ∈ x.head?, l.1 < depth

theorem Above.mono {depth depth' : Nat} {x : List (Nat × Node)} (h : Above depth x)
    (hle : depth ≤ depth') : Above depth' x := fun l hl => Nat.lt_of_lt_of_le (h l hl) hle

theorem Item.lines_eq_cons (depth : Nat) (item : Item) :
    ∃ node ls, item.lines depth = (depth, node) :: ls := by
  cases item with
  | rule selector body =>
      rw [Item.lines]
      exact ⟨_, _, rfl⟩
  | statement name params =>
      rw [Item.lines]
      exact ⟨_, _, rfl⟩
  | descriptors name params body =>
      rw [Item.lines]
      exact ⟨_, _, rfl⟩
  | group name params body =>
      rw [Item.lines]
      exact ⟨_, _, rfl⟩

theorem above_itemLines {depth : Nat} {items : List Item} {x : List (Nat × Node)}
    (hx : Above depth x) : Above (depth + 2) (itemLines depth items ++ x) := by
  cases items with
  | nil =>
      rw [itemLines]
      exact hx.mono (Nat.le_add_right _ _)
  | cons item items =>
      obtain ⟨node, ls, hls⟩ := item.lines_eq_cons depth
      rw [itemLines, hls]
      intro l hl
      cases hl
      exact Nat.lt_add_of_pos_right (by decide)

theorem declarationLines_append_inj {depth : Nat} {ds ds' : List Declaration}
    {x x' : List (Nat × Node)} (hx : Above depth x) (hx' : Above depth x')
    (h : declarationLines depth ds ++ x = declarationLines depth ds' ++ x') : ds = ds' ∧ x = x' := by
  have not_above : ∀ {node : Node} {ls : List (Nat × Node)}, ¬Above depth ((depth, node) :: ls) :=
    fun ha => Nat.lt_irrefl _ (ha _ rfl)
  induction ds generalizing ds' with
  | nil =>
      cases ds' with
      | nil => exact ⟨rfl, h⟩
      | cons d' ds' =>
          rw [declarationLines, List.map_nil, List.nil_append] at h
          rw [h] at hx
          exact absurd hx not_above
  | cons d ds ih =>
      cases ds' with
      | nil =>
          rw [declarationLines, declarationLines, List.map_nil, List.nil_append] at h
          rw [← h] at hx'
          exact absurd hx' not_above
      | cons d' ds' =>
          obtain ⟨hd, htail⟩ := List.cons.inj h
          cases hd
          obtain ⟨rfl, hx⟩ := ih htail
          exact ⟨rfl, hx⟩

mutual
theorem Item.lines_append_inj {depth : Nat} {item item' : Item} {x x' : List (Nat × Node)}
    (hn : item.WellNamed) (hn' : item'.WellNamed) (hx : Above (depth + 2) x)
    (hx' : Above (depth + 2) x') (h : item.lines depth ++ x = item'.lines depth ++ x') :
    item = item' ∧ x = x' := by
  match item with
  | .rule selector body =>
      cases item' <;> simp only [Item.lines, List.cons_append, List.cons.injEq, Prod.mk.injEq,
        Node.rule.injEq, reduceCtorEq, and_false, false_and, true_and, and_true] at h
      obtain ⟨rfl, h⟩ := h
      obtain ⟨rfl, hx⟩ := declarationLines_append_inj hx hx' h
      exact ⟨rfl, hx⟩
  | .statement name params =>
      cases item' <;> simp only [Item.lines, List.cons_append, List.cons.injEq, Prod.mk.injEq,
        Node.atRule.injEq, List.nil_append, reduceCtorEq, and_false, false_and, true_and,
        and_true] at h
      obtain ⟨⟨rfl, rfl⟩, hx⟩ := h
      exact ⟨rfl, hx⟩
  | .descriptors name params body =>
      cases item' <;> simp only [Item.lines, List.cons_append, List.cons.injEq, Prod.mk.injEq,
        Node.atRule.injEq, reduceCtorEq, and_false, false_and, true_and, and_true] at h
      case descriptors =>
        obtain ⟨⟨rfl, rfl⟩, h⟩ := h
        obtain ⟨rfl, hx⟩ := declarationLines_append_inj hx hx' h
        exact ⟨rfl, hx⟩
      case group =>
        obtain ⟨⟨rfl, rfl⟩, _⟩ := h
        simp only [Item.WellNamed] at hn hn'
        rw [hn] at hn'
        cases hn'.1
  | .group name params body =>
      cases item' <;> simp only [Item.lines, List.cons_append, List.cons.injEq, Prod.mk.injEq,
        Node.atRule.injEq, reduceCtorEq, and_false, false_and, true_and, and_true] at h
      case descriptors =>
        obtain ⟨⟨rfl, rfl⟩, _⟩ := h
        simp only [Item.WellNamed] at hn hn'
        rw [hn'] at hn
        cases hn.1
      case group =>
        obtain ⟨⟨rfl, rfl⟩, h⟩ := h
        simp only [Item.WellNamed] at hn hn'
        obtain ⟨rfl, hx⟩ := itemLines_append_inj hn.2 hn'.2 hx hx' h
        exact ⟨rfl, hx⟩

theorem itemLines_append_inj {depth : Nat} {items items' : List Item} {x x' : List (Nat × Node)}
    (hn : ItemsWellNamed items) (hn' : ItemsWellNamed items') (hx : Above depth x)
    (hx' : Above depth x') (h : itemLines depth items ++ x = itemLines depth items' ++ x') :
    items = items' ∧ x = x' := by
  have not_above : ∀ {item : Item} {ls : List (Nat × Node)},
      ¬Above depth (item.lines depth ++ ls) := by
    intro item ls ha
    obtain ⟨node, ls', hls⟩ := item.lines_eq_cons depth
    rw [hls] at ha
    exact Nat.lt_irrefl _ (ha _ rfl)
  match items, items' with
  | [], [] =>
      rw [itemLines, List.nil_append, List.nil_append] at h
      exact ⟨rfl, h⟩
  | [], item' :: items' =>
      rw [itemLines, itemLines, List.nil_append, List.append_assoc] at h
      rw [h] at hx
      exact absurd hx not_above
  | item :: items, [] =>
      rw [itemLines, itemLines, List.nil_append, List.append_assoc] at h
      rw [← h] at hx'
      exact absurd hx' not_above
  | item :: items, item' :: items' =>
      rw [itemLines, itemLines, List.append_assoc, List.append_assoc] at h
      obtain ⟨rfl, hrest⟩ :=
        item.lines_append_inj hn.1 hn'.1 (above_itemLines hx) (above_itemLines hx') h
      obtain ⟨rfl, hx⟩ := itemLines_append_inj hn.2 hn'.2 hx hx' hrest
      exact ⟨rfl, hx⟩
end

/-- Stylesheets of well-named entries with one listing have the same entries. -/
theorem Sheet.ofItems_inj_of_listing {items items' : List Item} (hn : ItemsWellNamed items)
    (hn' : ItemsWellNamed items') (h : (ofItems items).listing = (ofItems items').listing) :
    items = items' := by
  rw [listing_ofItems, listing_ofItems] at h
  have hlines := (List.cons.inj (Except.ok.inj h)).2
  have habove : Above 1 [] := fun l hl => by cases hl
  rw [← List.append_nil (itemLines 1 items), ← List.append_nil (itemLines 1 items')] at hlines
  exact (itemLines_append_inj hn hn' habove habove hlines).1

end TieredStyle.Css
