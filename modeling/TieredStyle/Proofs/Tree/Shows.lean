import TieredStyle.Css.Sheet.Lemmas
import TieredStyle.Css.Tree

/-!
# What a stylesheet shows

A stylesheet shows a tree if its nodes, its blocks and its children are those that the tree has. There is
one such tree below each node.
-/
namespace TieredStyle.Css

def Tree.id : Tree → Nat
  | mk id _ _ _ => id

inductive Sheet.Shows (s : Sheet) : Tree → Prop
  | mk {id : Nat} {node : Node} {block : Option Tree} {children : List Tree} :
      s.node? id = some node → s.block? id = block.map Tree.id →
      s.children id = children.map Tree.id → (∀ t ∈ block, s.Shows t) →
      (∀ t ∈ children, s.Shows t) → s.Shows (.mk id node block children)

namespace Sheet

variable {s : Sheet}

instance : DecidableEq Sheet := fun s t =>
  decidable_of_iff (s.slots = t.slots) ⟨slots_ext, congrArg slots⟩

theorem lt_size_of_node? {id : Nat} {node : Node} (h : s.node? id = some node) : id < s.size := by
  rw [← Nat.not_le]
  intro hle
  rw [node?_eq_none_iff.2 hle] at h
  cases h

theorem node?_of_lt {id : Nat} (h : id < s.size) : s.node? id = some (s.slots[id]).node := by
  rw [node?, Array.getElem?_eq_getElem h]
  rfl

theorem id_treeAt (id : Nat) (h : id < s.size) : (s.treeAt id h).id = id := by
  rw [treeAt]
  rfl

theorem shows_treeAt (id : Nat) (h : id < s.size) : s.Shows (s.treeAt id h) := by
  rw [treeAt]
  refine .mk (node?_of_lt h) ?_ ?_ ?_ ?_
  · split
    next hb => exact hb
    next b hb => exact hb.trans (congrArg some (id_treeAt b _).symm)
  · rw [List.map_map]
    have : (Tree.id ∘ fun c : { c // c ∈ s.children id } =>
        s.treeAt c.1 (lt_of_mem_children c.2).2) = Subtype.val :=
      funext fun c => id_treeAt _ _
    rw [this, List.attach_map_subtype_val]
  · intro t ht
    split at ht
    next => cases ht
    next b hb =>
      have hlt := block?_lt hb
      cases ht
      exact shows_treeAt b hlt.2
  · intro t ht
    obtain ⟨c, _, rfl⟩ := List.mem_map.1 ht
    have hlt := lt_of_mem_children c.2
    exact shows_treeAt c.1 hlt.2
termination_by s.size - id
decreasing_by all_goals omega

theorem shows_tree : s.Shows s.tree := shows_treeAt root s.size_pos

theorem eq_of_ids {ts us : List Tree} (hids : ts.map Tree.id = us.map Tree.id)
    (h : ∀ t ∈ ts, ∀ u ∈ us, t.id = u.id → t = u) : ts = us := by
  induction ts generalizing us with
  | nil => exact (List.map_eq_nil_iff.1 hids.symm).symm
  | cons t ts ih =>
      cases us with
      | nil => cases hids
      | cons u us =>
          obtain ⟨hid, hids⟩ := List.cons.inj hids
          have htail := ih hids fun t ht u hu =>
            h t (List.mem_cons_of_mem _ ht) u (List.mem_cons_of_mem _ hu)
          rw [h t List.mem_cons_self u List.mem_cons_self hid, htail]

theorem eq_of_block_ids {b b' : Option Tree} (hids : b.map Tree.id = b'.map Tree.id)
    (h : ∀ t ∈ b, ∀ u ∈ b', t.id = u.id → t = u) : b = b' := by
  cases b with
  | none =>
      cases b' with
      | none => rfl
      | some u => cases hids
  | some t =>
      cases b' with
      | none => cases hids
      | some u => rw [h t rfl u rfl (Option.some.inj hids)]

/-- The trees below one node are equal. -/
theorem Shows.unique {t u : Tree} (ht : s.Shows t) (hu : s.Shows u) (hid : t.id = u.id) : t = u := by
  induction ht generalizing u with
  | @mk id node block children hn hb hc _ _ ihb ihc =>
      cases hu with
      | @mk id' node' block' children' hn' hb' hc' hbs' hcs' =>
          change id = id' at hid
          subst hid
          cases hn.symm.trans hn'
          have hblock : block = block' :=
            eq_of_block_ids (hb.symm.trans hb') fun t ht u hu => ihb t ht (hbs' u hu)
          have hchildren : children = children' :=
            eq_of_ids (hc.symm.trans hc') fun t ht u hu => ihc t ht (hcs' u hu)
          rw [hblock, hchildren]

theorem Shows.node?_eq {t : Tree} (h : s.Shows t) : s.node? t.id = some t.node := by
  cases h with
  | mk hn => exact hn

theorem Shows.tree_eq {t : Tree} (h : s.Shows t) (hid : t.id = root) : s.tree = t :=
  shows_tree.unique h (by rw [hid]; exact id_treeAt root s.size_pos)

end Sheet
end TieredStyle.Css
