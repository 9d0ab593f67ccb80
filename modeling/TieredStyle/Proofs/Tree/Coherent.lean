import TieredStyle.Css.Sheet.OfItems
import TieredStyle.Proofs.Tree.Shows

/-!
# Coherent stylesheets

A stylesheet keeps in two places which block belongs to which node: the node claims the block, and the
block hangs on the node. Entries that are read agree on it, and so does whatever is appended or set later.
-/
namespace TieredStyle.Css.Sheet

/-- The node that another one claims as its block. -/
def claim? (s : Sheet) (id : Nat) : Option Nat := (s.node? id).bind Node.block?

structure Coherent (s : Sheet) : Prop where
  claim_iff : ∀ id b, s.claim? id = some b ↔ s.place? b = some (.block id)
  block : ∀ id b, s.place? b = some (.block id) → s.node? b = some .block
  container : ∀ id c, s.place? c = some (.child id) →
    ∃ node, s.node? id = some node ∧ node.isContainer = true

variable {s s' : Sheet}

theorem claim?_push {node : Node} {place : Place} {h : place.Fits s.size} (id : Nat) :
    (s.push node place h).claim? id = if id = s.size then node.block? else s.claim? id := by
  rw [claim?, node?_push]
  split <;> rfl

theorem claim?_eq_none {id : Nat} (h : s.size ≤ id) : s.claim? id = none := by
  rw [claim?, node?_eq_none_iff.2 h]
  rfl

theorem place?_ne_block {id b : Nat} (h : s.size ≤ id) : s.place? b ≠ some (.block id) := by
  intro hb
  obtain ⟨hlt, hfits⟩ := place?_fits hb
  exact absurd (Nat.lt_trans hfits hlt) (Nat.not_lt_of_le h)

namespace Coherent

theorem claim_lt (h : s.Coherent) {id b : Nat} (hb : s.claim? id = some b) : id < b ∧ b < s.size := by
  obtain ⟨hlt, hfits⟩ := place?_fits ((h.claim_iff id b).1 hb)
  exact ⟨hfits, hlt⟩

theorem claim?_ne (h : s.Coherent) {id b : Nat} (hb : s.size ≤ b) : s.claim? id ≠ some b :=
  fun he => Nat.not_lt_of_le hb (h.claim_lt he).2

/-- Each claim is good. -/
theorem block?_eq (h : s.Coherent) (id : Nat) : s.block? id = s.claim? id := by
  cases hc : s.claim? id with
  | none =>
      rw [claim?, Option.bind_eq_none_iff] at hc
      cases hn : s.node? id with
      | none => simp [block?, hn]
      | some node => simp [block?, hn, hc node hn]
  | some b =>
      have hplace := (h.claim_iff id b).1 hc
      obtain ⟨node, hn, hb⟩ := Option.bind_eq_some_iff.1 hc
      simp [block?, hn, hb, h.block id b hplace, parent?, hplace, Place.owner?]

theorem blockOf_eq (h : s.Coherent) {id b : Nat} (hb : s.claim? id = some b) :
    s.blockOf id = .ok b := by
  obtain ⟨node, hn, _⟩ := Option.bind_eq_some_iff.1 hb
  rw [blockOf, hn]
  simp [h.block?_eq, hb]

/-! ## One more child -/

theorem push_child (h : s.Coherent) {node x : Node} {c : Nat} (hn : node.block? = none)
    (hx : s.node? c = some x) (hc : x.isContainer = true) (hlt : (Place.child c).Fits s.size) :
    (s.push node (.child c) hlt).Coherent where
  claim_iff id b := by
    rw [claim?_push, place?_push]
    by_cases hb : b = s.size
    · by_cases hid : id = s.size
      · simp [hb, hid, hn]
      · simp [hb, hid, h.claim?_ne (Nat.le_refl s.size)]
    · by_cases hid : id = s.size
      · simp [hb, hid, hn, place?_ne_block (Nat.le_refl s.size)]
      · simp [hb, hid, h.claim_iff]
  block id b := by
    rw [place?_push, node?_push]
    split
    · intro he
      cases he
    · exact h.block id b
  container id b := by
    rw [place?_push, node?_push]
    split
    · intro he
      cases he
      rw [if_neg (Nat.ne_of_lt (lt_size_of_node? hx))]
      exact ⟨x, hx, hc⟩
    · intro he
      obtain ⟨y, hy, hcontainer⟩ := h.container id b he
      rw [if_neg (Nat.ne_of_lt (lt_size_of_node? hy))]
      exact ⟨y, hy, hcontainer⟩

/-- A child with its block, which is empty yet. -/
theorem push_owning (h : s.Coherent) {node x : Node} {c : Nat}
    (hn : node.block? = some (s.size + 1)) (hx : s.node? c = some x) (hc : x.isContainer = true)
    (hlt : (Place.child c).Fits s.size)
    (hlt' : (Place.block s.size).Fits (s.push node (.child c) hlt).size) :
    ((s.push node (.child c) hlt).push .block (.block s.size) hlt').Coherent where
  claim_iff id b := by
    rw [claim?_push, claim?_push, place?_push, place?_push, size_push]
    have hnone : Node.block.block? = none := rfl
    have hnew : s.size ≤ b → s.claim? id ≠ some b := h.claim?_ne
    have hold : s.size ≤ id → s.place? b ≠ some (.block id) := place?_ne_block
    by_cases hb : b = s.size + 1
    · by_cases hid : id = s.size
      · simp [hb, hid, hn]
      · have hclaim : s.claim? id ≠ some (s.size + 1) := hb ▸ hnew (by omega)
        simp [hb, hid, Ne.symm hid, hclaim, hnone]
    · by_cases hb' : b = s.size
      · have hclaim : s.claim? id ≠ some s.size := hb' ▸ hnew (by omega)
        by_cases hid : id = s.size <;> simp [hb', hid, hn, hclaim, hnone]
      · by_cases hid : id < s.size
        · have hid' : id ≠ s.size + 1 ∧ id ≠ s.size := by omega
          simp [hb, hb', hid', h.claim_iff]
        · have hplace := hold (Nat.le_of_not_lt hid)
          by_cases hid' : id = s.size
          · simp [hb, hb', hid', hn, Ne.symm hb, hid' ▸ hplace]
          · simp [hb, hb', hid', claim?_eq_none (Nat.le_of_not_lt hid), hplace, hnone]
  block id b := by
    rw [place?_push, place?_push, node?_push, node?_push, size_push]
    by_cases hb : b = s.size + 1
    · simp [hb]
    · by_cases hb' : b = s.size
      · simp [hb']
      · simpa [hb, hb'] using h.block id b
  container id b := by
    rw [place?_push, place?_push, node?_push, node?_push, size_push]
    have hkeep : ∀ j y, s.node? j = some y → j ≠ s.size + 1 ∧ j ≠ s.size := by
      intro j y hy
      have := lt_size_of_node? hy
      omega
    by_cases hb : b = s.size + 1
    · simp [hb]
    · by_cases hb' : b = s.size
      · simp only [hb']
        intro he
        simp at he
        subst he
        obtain ⟨h1, h2⟩ := hkeep c x hx
        exact ⟨x, by simp [h1, h2, hx], hc⟩
      · intro he
        obtain ⟨y, hy, hcontainer⟩ := h.container id b (by simpa [hb, hb'] using he)
        obtain ⟨h1, h2⟩ := hkeep id y hy
        exact ⟨y, by simp [h1, h2, hy], hcontainer⟩

/-! ## Another content -/

theorem replace (h : s.Coherent) {c : Nat} {d e : Declaration}
    (hold : s.node? c = some (.declaration e)) (hs : s.replace? c (.declaration d) = some s') :
    s'.Coherent where
  claim_iff id b := by
    rw [place?_replace? hs, ← h.claim_iff, claim?, claim?, node?_replace? hs]
    by_cases hid : id = c
    · simp [hid, hold, Node.block?]
    · simp [hid]
  block id b := by
    rw [place?_replace? hs, node?_replace? hs]
    intro hb
    have hblock := h.block id b hb
    rw [if_neg]
    · exact hblock
    · rintro rfl
      rw [hold] at hblock
      cases hblock
  container id b := by
    rw [place?_replace? hs, node?_replace? hs]
    intro hb
    obtain ⟨y, hy, hc⟩ := h.container id b hb
    refine ⟨y, ?_, hc⟩
    rw [if_neg]
    · exact hy
    · rintro rfl
      rw [hold] at hy
      cases hy
      cases hc

end Coherent

/-! ## Many nodes at once -/

/-- The stylesheet with further nodes behind its own. -/
def extend (s : Sheet) (l : List Slot) (h : FitFrom s.size l) : Sheet where
  slots := s.slots ++ l.toArray
  size_pos := by simpa using Nat.add_pos_left s.size_pos _
  fits id hid := by
    rw [Array.getElem_append]
    split
    next hlt => exact s.fits id hlt
    next hge =>
      simp only [Array.size_append, List.size_toArray] at hid
      have hle := Nat.le_of_not_lt hge
      have hfit := h.getElem (id - s.slots.size) (by omega)
      rw [size, Nat.add_sub_cancel' hle] at hfit
      exact hfit

@[simp] theorem size_extend {l : List Slot} (h : FitFrom s.size l) :
    (s.extend l h).size = s.size + l.length := by simp [size, extend]

theorem extend_nil (h : FitFrom s.size []) : s.extend [] h = s := slots_ext (by simp [extend])

theorem extend_cons {slot : Slot} {l : List Slot} (h : FitFrom s.size (slot :: l)) :
    s.extend (slot :: l) h =
      (s.push slot.node slot.place h.1).extend l ((size_push ..).symm ▸ h.2) :=
  slots_ext (by simp [extend, push])

theorem extend_append {l₁ l₂ : List Slot} (h : FitFrom s.size (l₁ ++ l₂)) (h₁ : FitFrom s.size l₁)
    (h₂ : FitFrom (s.extend l₁ h₁).size l₂) : s.extend (l₁ ++ l₂) h = (s.extend l₁ h₁).extend l₂ h₂ :=
  slots_ext (by simp [extend])

theorem node?_extend {l : List Slot} {h : FitFrom s.size l} {id : Nat} {node : Node}
    (hn : s.node? id = some node) : (s.extend l h).node? id = some node := by
  have hlt : id < s.slots.size := lt_size_of_node? hn
  rw [node?, extend, Array.getElem?_append_left hlt]
  exact hn

namespace Coherent

variable {owner next : Nat} {x : Node}

theorem extend_declarations (h : s.Coherent) (hx : s.node? owner = some x)
    (hc : x.isContainer = true) (ds : List Declaration)
    (hfit : FitFrom s.size (declarationSlots owner ds)) :
    (s.extend (declarationSlots owner ds) hfit).Coherent := by
  induction ds generalizing s with
  | nil => exact (extend_nil hfit).symm ▸ h
  | cons d ds ih =>
      simp only [declarationSlots, List.map_cons] at hfit ⊢
      rw [extend_cons]
      have hpush : (s.push (.declaration d) (.child owner) hfit.1).Coherent := h.push_child rfl hx hc hfit.1
      refine ih hpush ?_ _
      rw [node?_push, if_neg (Nat.ne_of_lt (lt_size_of_node? hx))]
      exact hx

/-- A node with a block, and then what hangs on the block. -/
theorem extend_owning (h : s.Coherent) (hx : s.node? owner = some x) (hc : x.isContainer = true)
    (hnext : s.size = next) {node : Node} (hn : node.block? = some (next + 1)) {l : List Slot}
    (hfit : FitFrom s.size (⟨node, .child owner⟩ :: ⟨.block, .block next⟩ :: l))
    (hl : ∀ (t : Sheet) (hfit : FitFrom t.size l), t.Coherent → t.size = next + 2 →
      t.node? (next + 1) = some .block → (t.extend l hfit).Coherent) :
    (s.extend (⟨node, .child owner⟩ :: ⟨.block, .block next⟩ :: l) hfit).Coherent := by
  subst hnext
  rw [extend_cons, extend_cons]
  have hlt : (Place.block s.size).Fits (s.push node (.child owner) hfit.1).size := by
    rw [size_push]
    exact Nat.lt_succ_self _
  refine hl _ _ (h.push_owning hn hx hc hfit.1 hlt) (by simp) ?_
  rw [node?_push, size_push, if_pos rfl]

mutual
theorem extend_item {s : Sheet} {owner next : Nat} {x : Node} (h : s.Coherent)
    (hx : s.node? owner = some x) (hc : x.isContainer = true) (hnext : s.size = next) (item : Item)
    (hfit : FitFrom s.size (item.slots owner next)) :
    (s.extend (item.slots owner next) hfit).Coherent := by
  match item with
  | .rule selector body =>
      simp only [Item.slots] at hfit ⊢
      refine h.extend_owning hx hc hnext rfl hfit fun t hfit ht _ hb => ?_
      exact ht.extend_declarations hb rfl body hfit
  | .statement name params =>
      simp only [Item.slots] at hfit ⊢
      rw [extend_cons, extend_nil]
      exact h.push_child rfl hx hc hfit.1
  | .descriptors name params body =>
      simp only [Item.slots] at hfit ⊢
      refine h.extend_owning hx hc hnext rfl hfit fun t hfit ht _ hb => ?_
      exact ht.extend_declarations hb rfl body hfit
  | .group name params body =>
      simp only [Item.slots] at hfit ⊢
      refine h.extend_owning hx hc hnext rfl hfit fun t hfit ht hsize hb => ?_
      exact extend_items ht hb rfl hsize body hfit

theorem extend_items {s : Sheet} {owner next : Nat} {x : Node} (h : s.Coherent)
    (hx : s.node? owner = some x) (hc : x.isContainer = true) (hnext : s.size = next)
    (items : List Item)
    (hfit : FitFrom s.size (itemSlots owner next items)) :
    (s.extend (itemSlots owner next items) hfit).Coherent := by
  match items with
  | [] =>
      simp only [itemSlots] at hfit ⊢
      rw [extend_nil]
      exact h
  | item :: items =>
      simp only [itemSlots] at hfit ⊢
      have hlt : owner < s.size := lt_size_of_node? hx
      have hfirst : FitFrom s.size (item.slots owner next) := hnext ▸ item.fitFrom_slots hlt
      have hsize : (s.extend _ hfirst).size = next + (item.slots owner next).length := by
        rw [size_extend, hnext]
      have hrest : FitFrom (s.extend _ hfirst).size
          (itemSlots owner (next + (item.slots owner next).length) items) :=
        hsize ▸ fitFrom_itemSlots (by omega) items
      rw [extend_append hfit hfirst hrest]
      exact extend_items (extend_item h hx hc hnext item hfirst) (node?_extend hx) hc hsize items hrest
end

end Coherent

theorem coherent_empty : Sheet.empty.Coherent where
  claim_iff id b := by
    cases id <;> cases b <;> simp [claim?, place?, node?, empty, Node.block?]
  block id b := by
    cases b <;> simp [place?, empty]
  container id b := by
    cases b <;> simp [place?, empty]

theorem ofItems_eq_extend (items : List Item) (hfit : FitFrom empty.size (itemSlots root 1 items)) :
    ofItems items = empty.extend (itemSlots root 1 items) hfit :=
  slots_ext (by simp [ofItems, extend, empty])

/-- The stylesheet with some entries. -/
theorem coherent_ofItems (items : List Item) : (ofItems items).Coherent := by
  have hfit : FitFrom empty.size (itemSlots root 1 items) := fitFrom_itemSlots Nat.one_pos items
  rw [ofItems_eq_extend items hfit]
  exact coherent_empty.extend_items (x := .stylesheet) rfl rfl rfl items hfit

end TieredStyle.Css.Sheet
