import TieredStyle.Css.Sheet.OfItems
import TieredStyle.Proofs.Tree.Shows

/-!
# The tree of entries

The stylesheet made of entries shows the tree that the entries spell out. Its nodes stand one after the
other, and what hangs on a node hangs there among the nodes of its own entry.
-/
namespace TieredStyle.Css

/-! ## Trees of entries -/

/-- A node numbered `next` with a block right after it. -/
def Tree.owning (next : Nat) (node : Option Nat → Node) (children : List Tree) : Tree :=
  .mk next (node (some (next + 1))) (some (.mk (next + 1) .block none children)) []

def declarationTrees (next : Nat) : List Declaration → List Tree
  | [] => []
  | d :: ds => .mk next (.declaration d) none [] :: declarationTrees (next + 1) ds

mutual
/-- The number of nodes of an entry. -/
def Item.count : Item → Nat
  | .rule _ body => body.length + 2
  | .statement .. => 1
  | .descriptors _ _ body => body.length + 2
  | .group _ _ body => itemCount body + 2

def itemCount : List Item → Nat
  | [] => 0
  | item :: items => item.count + itemCount items
end

mutual
/-- The tree of an entry, its nodes numbered from `next` on. -/
def Item.tree (next : Nat) : Item → Tree
  | .rule selector body => .owning next (.rule selector) (declarationTrees (next + 2) body)
  | .statement name params => .mk next (.atRule name params none) none []
  | .descriptors name params body =>
    .owning next (.atRule name params) (declarationTrees (next + 2) body)
  | .group name params body => .owning next (.atRule name params) (itemTrees (next + 2) body)

def itemTrees (next : Nat) : List Item → List Tree
  | [] => []
  | item :: items => item.tree next :: itemTrees (next + item.count) items
end

mutual
theorem Item.length_slots (owner next : Nat) :
    (item : Item) → (item.slots owner next).length = item.count
  | .rule _ body => by simp [Item.slots, Item.count, declarationSlots]
  | .statement .. => by simp [Item.slots, Item.count]
  | .descriptors _ _ body => by simp [Item.slots, Item.count, declarationSlots]
  | .group _ _ body => by
    simp [Item.slots, Item.count, length_itemSlots (next + 1) (next + 2) body]

theorem length_itemSlots (owner next : Nat) :
    (items : List Item) → (itemSlots owner next items).length = itemCount items
  | [] => by simp [itemSlots, itemCount]
  | item :: items => by
    rw [itemSlots, itemCount, List.length_append, item.length_slots, length_itemSlots]
end

theorem Item.id_tree (next : Nat) (item : Item) : (item.tree next).id = next := by
  cases item <;> simp [Item.tree, Tree.owning, Tree.id]

/-! ## Children among slots -/

/-- The numbers of the children of a node among slots that are numbered from `next` on. -/
def childrenFrom (next id : Nat) : List Slot → List Nat
  | [] => []
  | slot :: slots =>
    if slot.place = .child id then next :: childrenFrom (next + 1) id slots
    else childrenFrom (next + 1) id slots

theorem childrenFrom_append (next id : Nat) (l₁ l₂ : List Slot) :
    childrenFrom next id (l₁ ++ l₂) =
      childrenFrom next id l₁ ++ childrenFrom (next + l₁.length) id l₂ := by
  induction l₁ generalizing next with
  | nil => rfl
  | cons slot l₁ ih =>
      rw [List.cons_append, childrenFrom, childrenFrom, ih, List.length_cons,
        Nat.add_comm l₁.length, Nat.add_assoc]
      split <;> rfl

theorem childrenFrom_eq_filter (next id : Nat) (l : List Slot) :
    childrenFrom next id l =
      (List.range' next l.length).filter fun c => (l[c - next]?).map (·.place) = some (.child id) := by
  induction l generalizing next with
  | nil => rfl
  | cons slot l ih =>
      have htail : (List.range' (next + 1) l.length).filter
          (fun c => ((slot :: l)[c - next]?).map (·.place) = some (.child id)) =
          childrenFrom (next + 1) id l := by
        rw [ih]
        refine List.filter_congr fun c hc => ?_
        have hle := (List.mem_range'_1.1 hc).1
        have hsub : c - next = (c - (next + 1)) + 1 := by omega
        rw [hsub, List.getElem?_cons_succ]
      rw [List.length_cons, List.range'_succ, List.filter_cons, htail, childrenFrom, Nat.sub_self]
      simp

theorem Sheet.children_eq (s : Sheet) (id : Nat) :
    s.children id = childrenFrom 0 id s.slots.toList := by
  rw [childrenFrom_eq_filter, children, List.range_eq_range', size, Array.length_toList]
  refine List.filter_congr fun c _ => ?_
  rw [place?, Nat.sub_zero, Array.getElem?_toList]

theorem childrenFrom_declarationSlots (next block id : Nat) (ds : List Declaration) :
    childrenFrom next id (declarationSlots block ds) =
      if id = block then (declarationTrees next ds).map Tree.id else [] := by
  induction ds generalizing next with
  | nil => simp [declarationSlots, childrenFrom, declarationTrees]
  | cons d ds ih =>
      have ih := ih (next + 1)
      rw [declarationSlots] at ih
      rw [declarationSlots, List.map_cons, childrenFrom, ih]
      by_cases h : id = block
      · simp [h, declarationTrees, Tree.id]
      · have h' : block ≠ id := fun he => h he.symm
        simp [h, h']

theorem childrenFrom_owning (next id owner : Nat) (node : Node) (l : List Slot) :
    childrenFrom next id (⟨node, .child owner⟩ :: ⟨.block, .block next⟩ :: l) =
      (if id = owner then [next] else []) ++ childrenFrom (next + 2) id l := by
  rw [childrenFrom, childrenFrom]
  by_cases h : id = owner
  · simp [h]
  · have h' : owner ≠ id := fun he => h he.symm
    simp [h, h']

mutual
/-- An entry hangs nothing on the nodes outside it but itself on its owner. -/
theorem Item.childrenFrom_slots {owner next id : Nat} (item : Item)
    (hid : id < next ∨ next + item.count ≤ id) :
    childrenFrom next id (item.slots owner next) = if id = owner then [next] else [] := by
  match item with
  | .rule selector body =>
      rw [Item.count] at hid
      have hne : id ≠ next + 1 := by omega
      rw [Item.slots, childrenFrom_owning, childrenFrom_declarationSlots, if_neg hne,
        List.append_nil]
  | .statement name params =>
      rw [Item.slots, childrenFrom, childrenFrom]
      by_cases h : id = owner
      · simp [h]
      · have h' : owner ≠ id := fun he => h he.symm
        simp [h, h']
  | .descriptors name params body =>
      rw [Item.count] at hid
      have hne : id ≠ next + 1 := by omega
      rw [Item.slots, childrenFrom_owning, childrenFrom_declarationSlots, if_neg hne,
        List.append_nil]
  | .group name params body =>
      rw [Item.count] at hid
      have hne : id ≠ next + 1 := by omega
      rw [Item.slots, childrenFrom_owning, childrenFrom_itemSlots body (by omega),
        if_neg hne, List.append_nil]

theorem childrenFrom_itemSlots {owner next id : Nat} (items : List Item)
    (hid : id < next ∨ next + itemCount items ≤ id) :
    childrenFrom next id (itemSlots owner next items) =
      if id = owner then (itemTrees next items).map Tree.id else [] := by
  match items with
  | [] => simp [itemSlots, childrenFrom, itemTrees]
  | item :: items =>
      rw [itemCount] at hid
      rw [itemSlots, childrenFrom_append, item.childrenFrom_slots (by omega), item.length_slots,
        childrenFrom_itemSlots items (by omega), itemTrees, List.map_cons, item.id_tree]
      split <;> rfl
end

/-! ## A stylesheet that holds slots -/

/-- The nodes from `next` on are those of the slots, and the children of these nodes are among them. -/
structure Sheet.Holds (s : Sheet) (next : Nat) (l : List Slot) : Prop where
  slot : ∀ (i : Nat) (h : i < l.length), s.slots[next + i]? = some l[i]
  children : ∀ id, next ≤ id → id < next + l.length → s.children id = childrenFrom next id l

namespace Sheet.Holds

variable {s : Sheet} {next owner : Nat} {node : Node} {l l₁ l₂ : List Slot}

theorem node? (h : s.Holds next l) {i : Nat} (hi : i < l.length) :
    s.node? (next + i) = some l[i].node := by
  rw [Sheet.node?, h.slot i hi]
  rfl

theorem place? (h : s.Holds next l) {i : Nat} (hi : i < l.length) :
    s.place? (next + i) = some l[i].place := by
  rw [Sheet.place?, h.slot i hi]
  rfl

/-- What a node with a block holds: the block, and what hangs on the block. -/
theorem owning (h : s.Holds next (⟨node, .child owner⟩ :: ⟨.block, .block next⟩ :: l))
    (ho : owner < next) :
    s.Holds (next + 2) l ∧ s.children next = childrenFrom (next + 2) next l ∧
      s.children (next + 1) = childrenFrom (next + 2) (next + 1) l := by
  have hchildren : ∀ id, next ≤ id → id < next + (l.length + 2) →
      s.children id = childrenFrom (next + 2) id l := by
    intro id hle hlt
    have hne : id ≠ owner := by omega
    rw [h.children id hle hlt, childrenFrom_owning, if_neg hne, List.nil_append]
  refine ⟨⟨fun i hi => ?_, fun id hle hlt => ?_⟩, ?_, ?_⟩
  · rw [Nat.add_assoc, Nat.add_comm 2]
    exact h.slot (i + 2) (Nat.add_lt_add_right hi 2)
  · exact hchildren id (by omega) (by omega)
  · exact hchildren next (Nat.le_refl _) (by omega)
  · exact hchildren (next + 1) (by omega) (by omega)

theorem block? (h : s.Holds next (⟨node, .child owner⟩ :: ⟨.block, .block next⟩ :: l))
    (hb : node.block? = some (next + 1)) : s.block? next = some (next + 1) := by
  have hn : s.node? next = some node := h.node? (i := 0) (by simp)
  have hblock : s.node? (next + 1) = some .block := h.node? (i := 1) (by simp)
  have hplace : s.place? (next + 1) = some (.block next) := h.place? (i := 1) (by simp)
  simp [Sheet.block?, hn, hb, hblock, parent?, hplace, Place.owner?]

theorem left (h : s.Holds next (l₁ ++ l₂))
    (hl : ∀ id, next ≤ id → id < next + l₁.length → childrenFrom (next + l₁.length) id l₂ = []) :
    s.Holds next l₁ := by
  refine ⟨fun i hi => ?_, fun id hle hlt => ?_⟩
  · rw [h.slot i (by rw [List.length_append]; omega), List.getElem_append_left hi]
  · rw [h.children id hle (by rw [List.length_append]; omega), childrenFrom_append,
      hl id hle hlt, List.append_nil]

theorem right (h : s.Holds next (l₁ ++ l₂))
    (hl : ∀ id, next + l₁.length ≤ id → childrenFrom next id l₁ = []) :
    s.Holds (next + l₁.length) l₂ := by
  refine ⟨fun i hi => ?_, fun id hle hlt => ?_⟩
  · have := h.slot (l₁.length + i) (by rw [List.length_append]; omega)
    rw [List.getElem_append_right (by omega)] at this
    simpa [Nat.add_assoc] using this
  · rw [h.children id (by omega) (by rw [List.length_append]; omega), childrenFrom_append, hl id hle,
      List.nil_append]

theorem shows_declarations {ds : List Declaration}
    (h : s.Holds next (declarationSlots owner ds)) (ho : owner < next) :
    ∀ t ∈ declarationTrees next ds, s.Shows t := by
  induction ds generalizing next with
  | nil =>
      intro t ht
      cases ht
  | cons d ds ih =>
      have h : s.Holds next ([⟨.declaration d, .child owner⟩] ++ declarationSlots owner ds) := h
      have hrest : s.Holds (next + 1) (declarationSlots owner ds) := by
        refine h.right fun id hid => ?_
        have hne : owner ≠ id := by simp at hid; omega
        simp [childrenFrom, hne]
      intro t ht
      rw [declarationTrees] at ht
      rcases List.mem_cons.1 ht with rfl | ht
      · have hn : s.node? next = some (.declaration d) := h.node? (i := 0) (by simp)
        have hc := h.children next (Nat.le_refl _) (by simp)
        refine .mk hn ?_ ?_ (fun b hb => by cases hb) (fun c hc => by cases hc)
        · simp [Sheet.block?, hn, Node.block?]
        · have hne : owner ≠ next := by omega
          have htail := childrenFrom_declarationSlots (next + 1) owner next ds
          rw [if_neg (by omega)] at htail
          rw [hc, List.singleton_append, childrenFrom]
          simp [hne, htail]
      · exact ih hrest (by omega) t ht

/-- A node with a block shows what hangs on the block. -/
theorem shows_owning {make : Option Nat → Node} {children : List Tree}
    (h : s.Holds next (⟨make (some (next + 1)), .child owner⟩ :: ⟨.block, .block next⟩ :: l))
    (ho : owner < next) (hb : ∀ b, (make b).block? = b)
    (hnone : childrenFrom (next + 2) next l = [])
    (hids : childrenFrom (next + 2) (next + 1) l = children.map Tree.id)
    (hall : ∀ t ∈ children, s.Shows t) : s.Shows (.owning next make children) := by
  have hn : s.node? next = some (make (some (next + 1))) := h.node? (i := 0) (by simp)
  have hblock : s.node? (next + 1) = some .block := h.node? (i := 1) (by simp)
  obtain ⟨_, hc, hc'⟩ := h.owning ho
  refine .mk hn (h.block? (hb _)) (hc.trans hnone) ?_ (fun c hc => by cases hc)
  intro t ht
  cases ht
  refine .mk hblock ?_ (hc'.trans hids) (fun b hb => by cases hb) hall
  simp [Sheet.block?, hblock, Node.block?]

end Sheet.Holds

open Sheet in
mutual
theorem Item.shows_tree {s : Sheet} {owner next : Nat} (ho : owner < next) (item : Item)
    (h : s.Holds next (item.slots owner next)) : s.Shows (item.tree next) := by
  match item with
  | .rule selector body =>
      rw [Item.slots] at h
      have hds := fun id => childrenFrom_declarationSlots (next + 2) (next + 1) id body
      refine h.shows_owning ho (fun _ => rfl) ?_ ?_ ?_
      · rw [hds, if_neg (by omega)]
      · rw [hds, if_pos rfl]
      · exact (h.owning ho).1.shows_declarations (by omega)
  | .statement name params =>
      rw [Item.slots] at h
      have hn : s.node? next = some (.atRule name params none) := h.node? (i := 0) (by simp)
      have hc := h.children next (Nat.le_refl _) (by simp)
      refine .mk hn ?_ ?_ (fun b hb => by cases hb) (fun c hc => by cases hc)
      · simp [Sheet.block?, hn, Node.block?]
      · have hne : owner ≠ next := by omega
        rw [hc]
        simp [childrenFrom, hne]
  | .descriptors name params body =>
      rw [Item.slots] at h
      have hds := fun id => childrenFrom_declarationSlots (next + 2) (next + 1) id body
      refine h.shows_owning ho (fun _ => rfl) ?_ ?_ ?_
      · rw [hds, if_neg (by omega)]
      · rw [hds, if_pos rfl]
      · exact (h.owning ho).1.shows_declarations (by omega)
  | .group name params body =>
      rw [Item.slots] at h
      refine h.shows_owning ho (fun _ => rfl) ?_ ?_ ?_
      · rw [childrenFrom_itemSlots body (by omega), if_neg (by omega)]
      · rw [childrenFrom_itemSlots body (by omega), if_pos rfl]
      · exact shows_itemTrees (by omega) body (h.owning ho).1

theorem shows_itemTrees {s : Sheet} {owner next : Nat} (ho : owner < next) (items : List Item)
    (h : s.Holds next (itemSlots owner next items)) : ∀ t ∈ itemTrees next items, s.Shows t := by
  match items with
  | [] =>
      intro t ht
      rw [itemTrees] at ht
      cases ht
  | item :: items =>
      rw [itemSlots] at h
      have hleft := h.left fun id hle hlt => by
        rw [item.length_slots] at hlt ⊢
        rw [childrenFrom_itemSlots items (by omega), if_neg (by omega)]
      have hright := h.right fun id hle => by
        rw [item.length_slots] at hle
        rw [item.childrenFrom_slots (by omega), if_neg (by omega)]
      rw [item.length_slots] at hright
      intro t ht
      rw [itemTrees] at ht
      rcases List.mem_cons.1 ht with rfl | ht
      · exact item.shows_tree ho hleft
      · exact shows_itemTrees (by omega) items hright t ht
end

/-- The tree of the stylesheet with these entries. -/
theorem tree_ofItems (items : List Item) :
    (Sheet.ofItems items).tree = .mk 0 .stylesheet none (itemTrees 1 items) := by
  have hslots : (Sheet.ofItems items).slots.toList =
      [⟨.stylesheet, .root⟩] ++ itemSlots 0 1 items := rfl
  have hall : (Sheet.ofItems items).Holds 0 ([⟨.stylesheet, .root⟩] ++ itemSlots 0 1 items) := by
    refine ⟨fun i hi => ?_, fun id _ _ => ?_⟩
    · rw [Nat.zero_add, ← Array.getElem?_toList, hslots, List.getElem?_eq_getElem hi]
    · rw [Sheet.children_eq, hslots]
  have hroot : (Sheet.ofItems items).children 0 = (itemTrees 1 items).map Tree.id := by
    rw [Sheet.children_eq, hslots, childrenFrom_append]
    have := @childrenFrom_itemSlots 0 1 0 items (by omega)
    simpa [childrenFrom] using this
  have hn : (Sheet.ofItems items).node? 0 = some .stylesheet := hall.node? (i := 0) (by simp)
  refine Sheet.Shows.tree_eq (.mk hn ?_ hroot (fun b hb => by cases hb) ?_) rfl
  · simp [Sheet.block?, hn, Node.block?]
  · exact shows_itemTrees Nat.one_pos items (hall.right fun id _ => by simp [childrenFrom])

end TieredStyle.Css
