import TieredStyle.Css.Item.Read
import TieredStyle.Css.Sheet

/-! The stylesheet that a syntax tree describes, its nodes numbered in document order. -/
namespace TieredStyle.Css

/-- The declarations of the block with number `block`. -/
def declarationSlots (block : Nat) (ds : List Declaration) : List Slot :=
  ds.map fun d => ⟨.declaration d, .child block⟩

mutual
/-- The nodes of an entry of `owner`, numbered from `next` on: the block comes right after the
node that owns it. -/
def Item.slots (owner next : Nat) : Item → List Slot
  | .rule selector body =>
    ⟨.rule selector (some (next + 1)), .child owner⟩ :: ⟨.block, .block next⟩ ::
      declarationSlots (next + 1) body
  | .statement name params => [⟨.atRule name params none, .child owner⟩]
  | .descriptors name params body =>
    ⟨.atRule name params (some (next + 1)), .child owner⟩ :: ⟨.block, .block next⟩ ::
      declarationSlots (next + 1) body
  | .group name params body =>
    ⟨.atRule name params (some (next + 1)), .child owner⟩ :: ⟨.block, .block next⟩ ::
      itemSlots (next + 1) (next + 2) body

def itemSlots (owner next : Nat) : List Item → List Slot
  | [] => []
  | item :: items =>
    item.slots owner next ++ itemSlots owner (next + (item.slots owner next).length) items
end

/-- Each slot fits its number, counted from `next` on. -/
def FitFrom (next : Nat) : List Slot → Prop
  | [] => True
  | slot :: slots => slot.place.Fits next ∧ FitFrom (next + 1) slots

theorem FitFrom.append {next : Nat} {l₁ l₂ : List Slot} (h₁ : FitFrom next l₁)
    (h₂ : FitFrom (next + l₁.length) l₂) : FitFrom next (l₁ ++ l₂) := by
  induction l₁ generalizing next with
  | nil => exact h₂
  | cons slot l₁ ih =>
    refine ⟨h₁.1, ih h₁.2 ?_⟩
    rw [List.length_cons, Nat.add_comm l₁.length, ← Nat.add_assoc] at h₂
    exact h₂

theorem FitFrom.getElem {next : Nat} {l : List Slot} (h : FitFrom next l) (i : Nat)
    (hi : i < l.length) : l[i].place.Fits (next + i) := by
  induction l generalizing next i with
  | nil => exact absurd hi (Nat.not_lt_zero _)
  | cons slot l ih =>
    cases i with
    | zero => exact h.1
    | succ i =>
      have := ih h.2 i (Nat.lt_of_succ_lt_succ hi)
      rwa [Nat.add_assoc, Nat.add_comm 1] at this

theorem fitFrom_declarationSlots {block next : Nat} (h : block < next)
    (ds : List Declaration) : FitFrom next (declarationSlots block ds) := by
  induction ds generalizing next with
  | nil => trivial
  | cons d ds ih => exact ⟨h, ih (Nat.lt_succ_of_lt h)⟩

mutual
theorem Item.fitFrom_slots {owner next : Nat} (h : owner < next) :
    (item : Item) → FitFrom next (item.slots owner next)
  | .rule .. => by
    rw [Item.slots]
    exact ⟨h, Nat.lt_succ_self _, fitFrom_declarationSlots (Nat.lt_succ_self _) _⟩
  | .statement .. => by rw [Item.slots]; exact ⟨h, trivial⟩
  | .descriptors .. => by
    rw [Item.slots]
    exact ⟨h, Nat.lt_succ_self _, fitFrom_declarationSlots (Nat.lt_succ_self _) _⟩
  | .group _ _ body => by
    rw [Item.slots]
    exact ⟨h, Nat.lt_succ_self _, fitFrom_itemSlots (Nat.lt_succ_self _) body⟩

theorem fitFrom_itemSlots {owner next : Nat} (h : owner < next) :
    (items : List Item) → FitFrom next (itemSlots owner next items)
  | [] => by rw [itemSlots]; trivial
  | item :: items => by
    rw [itemSlots]
    exact (item.fitFrom_slots h).append
      (fitFrom_itemSlots (Nat.lt_of_lt_of_le h (Nat.le_add_right _ _)) items)
end

namespace Sheet

/-- The stylesheet with these entries. -/
def ofItems (items : List Item) : Sheet where
  slots := (⟨.stylesheet, .root⟩ :: itemSlots root 1 items).toArray
  size_pos := Nat.zero_lt_succ _
  fits := fun id h => by
    have hf : FitFrom 0 (⟨.stylesheet, .root⟩ :: itemSlots root 1 items) :=
      ⟨rfl, fitFrom_itemSlots Nat.one_pos items⟩
    have := hf.getElem id h
    rwa [Nat.zero_add] at this

/-- Reads a stylesheet. -/
def read (s : String) : Except ParseError Sheet := do
  return ofItems (← readItems s)

end Sheet
end TieredStyle.Css
