import TieredStyle.Proofs.Tree.Put
import TieredStyle.Proofs.Tree.Shaped

/-!
# Blocks that are not empty

If each of some entries holds something then so does each block of the stylesheet that they make.
-/
namespace TieredStyle.Css

mutual
/-- There is something in each block of an entry. -/
def Item.Filled : Item → Prop
  | .rule _ body => body ≠ []
  | .statement .. => True
  | .descriptors _ _ body => body ≠ []
  | .group _ _ body => body ≠ [] ∧ ItemsFilled body

def ItemsFilled : List Item → Prop
  | [] => True
  | item :: items => item.Filled ∧ ItemsFilled items
end

theorem itemsFilled_iff {items : List Item} : ItemsFilled items ↔ ∀ item ∈ items, item.Filled := by
  induction items with
  | nil => simp [ItemsFilled]
  | cons item items ih => simp [ItemsFilled, ih]

/-- There is something in the block. -/
def Tree.Filled (t : Tree) : Prop := ∀ b ∈ t.block, b.children ≠ []

section

variable {above : List Node} {next : Nat}

theorem Tree.filled_leaf {id : Nat} {node : Node} :
    (Tree.mk id node none []).Everywhere (fun _ => Tree.Filled) above :=
  .mk (fun b hb => by cases hb) (fun t ht => by cases ht) (fun t ht => by cases ht)

theorem filled_declarationTrees (ds : List Declaration) :
    ∀ t ∈ declarationTrees next ds, t.Everywhere (fun _ => Tree.Filled) above := by
  induction ds generalizing next with
  | nil =>
      intro t ht
      cases ht
  | cons d ds ih =>
      intro t ht
      rcases List.mem_cons.1 ht with rfl | ht
      · exact Tree.filled_leaf
      · exact ih t ht

theorem filled_owning {make : Option Nat → Node} {children : List Tree} (hne : children ≠ [])
    (hall : ∀ t ∈ children, t.Everywhere (fun _ => Tree.Filled) (.block :: make (some (next + 1)) :: above)) :
    (Tree.owning next make children).Everywhere (fun _ => Tree.Filled) above := by
  refine .mk ?_ ?_ (fun t ht => by cases ht)
  · intro b hb
    cases hb
    exact hne
  · intro b hb
    cases hb
    exact .mk (fun b hb => by cases hb) (fun t ht => by cases ht) hall

theorem declarationTrees_ne_nil {ds : List Declaration} (h : ds ≠ []) : declarationTrees next ds ≠ [] := by
  cases ds with
  | nil => exact absurd rfl h
  | cons d ds => simp [declarationTrees]

theorem itemTrees_ne_nil {items : List Item} (h : items ≠ []) : itemTrees next items ≠ [] := by
  cases items with
  | nil => exact absurd rfl h
  | cons item items => simp [itemTrees]

mutual
theorem Item.filled_tree {above : List Node} {next : Nat} (item : Item) (h : item.Filled) :
    (item.tree next).Everywhere (fun _ => Tree.Filled) above := by
  match item with
  | .rule selector body =>
      rw [Item.Filled] at h
      rw [Item.tree]
      exact filled_owning (declarationTrees_ne_nil h) (filled_declarationTrees body)
  | .statement name params =>
      rw [Item.tree]
      exact Tree.filled_leaf
  | .descriptors name params body =>
      rw [Item.Filled] at h
      rw [Item.tree]
      exact filled_owning (declarationTrees_ne_nil h) (filled_declarationTrees body)
  | .group name params body =>
      rw [Item.Filled] at h
      rw [Item.tree]
      exact filled_owning (itemTrees_ne_nil h.1) (filled_itemTrees body h.2)

theorem filled_itemTrees {above : List Node} {next : Nat} (items : List Item) (h : ItemsFilled items) :
    ∀ t ∈ itemTrees next items, t.Everywhere (fun _ => Tree.Filled) above := by
  match items with
  | [] =>
      rw [itemTrees]
      intro t ht
      cases ht
  | item :: items =>
      rw [ItemsFilled] at h
      rw [itemTrees]
      intro t ht
      rcases List.mem_cons.1 ht with rfl | ht
      · exact item.filled_tree h.1
      · exact filled_itemTrees items h.2 t ht
end

end

namespace Sheet

theorem children_ne_nil_of_filled {items : List Item} (h : ItemsFilled items) {id block : Nat}
    (hblock : (ofItems items).blockOf id = .ok block) : (ofItems items).children block ≠ [] := by
  have hcoherent := coherent_ofItems items
  have hall : (ofItems items).tree.Everywhere (fun _ => Tree.Filled) [] := by
    rw [tree_ofItems]
    exact .mk (fun b hb => by cases hb) (fun t ht => by cases ht) (filled_itemTrees items h)
  have hclaim := (node?_of_blockOf hblock).1
  have hlt := hcoherent.claim_lt hclaim
  obtain ⟨t, rfl, hshows, hfilled⟩ :=
    hcoherent.exists_of_everywhere_tree hall (Nat.lt_trans hlt.1 hlt.2)
  cases hshows with
  | @mk id _ _ _ _ hb _ hbs _ =>
      change (ofItems items).claim? id = some block at hclaim
      rw [hcoherent.block?_eq, hclaim] at hb
      obtain ⟨b, rfl, rfl⟩ := Option.map_eq_some_iff.1 hb.symm
      cases hbs b rfl with
      | mk _ _ hchildren _ _ =>
          intro hnil
          exact hfilled _ rfl (List.map_eq_nil_iff.1 (hchildren.symm.trans hnil))

end Sheet
end TieredStyle.Css
