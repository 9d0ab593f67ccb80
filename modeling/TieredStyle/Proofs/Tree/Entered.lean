import Mathlib.Data.List.Nodup
import Mathlib.Data.List.Perm.Basic
import Mathlib.Logic.Basic
import TieredStyle.Proofs.Tree.Coherent
import TieredStyle.Proofs.Tree.Listing

/-!
# Coherent stylesheets are trees

In a coherent stylesheet a node stands below those that it hangs on, directly or not, and below no other.
So the tree of the root has each node once.
-/
namespace TieredStyle.Css

namespace Tree

/-- The numbers of the nodes, in document order. -/
def ids (t : Tree) : List Nat := t.preorder.map Prod.fst

/-- The block and the children. -/
def hanging (t : Tree) : List Tree := t.block.toList ++ t.children

theorem preorder_mk (id : Nat) (node : Node) (block : Option Tree) (children : List Tree) :
    (mk id node block children).preorder =
      (id, node) :: (block.toList ++ children).flatMap preorder := by
  have hchildren : (allEvents children).filterMap Event.entered = children.flatMap preorder := by
    induction children with
    | nil => rfl
    | cons t ts ih =>
        rw [allEvents, List.filterMap_append, ih]
        rfl
  cases block <;> simp [preorder, events, blockEvents, Event.entered, hchildren]

theorem ids_mk (id : Nat) (node : Node) (block : Option Tree) (children : List Tree) :
    (mk id node block children).ids = id :: (block.toList ++ children).flatMap ids := by
  rw [ids, preorder_mk, List.map_cons, List.map_flatMap]
  rfl

end Tree

namespace Sheet

variable {s : Sheet}

/-! ## The nodes above a node -/

/-- A node and those above it. -/
def upward (s : Sheet) (id : Nat) : List Nat := id :: s.ancestors id

theorem mem_upward_self (id : Nat) : id ∈ s.upward id := List.mem_cons_self

theorem upward_of_parent? {id p : Nat} (h : s.parent? id = some p) :
    s.upward id = id :: s.upward p := by rw [upward, ancestors_of_parent? h, upward]

theorem mem_upward_of_parent? {id a p : Nat} (ha : a ∈ s.upward id) (hp : s.parent? a = some p) :
    p ∈ s.upward id := by
  induction id using Nat.strongRecOn with
  | _ id ih =>
      rcases List.mem_cons.1 ha with rfl | ha
      · rw [upward_of_parent? hp]
        exact List.mem_cons_of_mem _ (mem_upward_self p)
      · cases hq : s.parent? id with
        | none =>
            rw [ancestors_root hq] at ha
            cases ha
        | some q =>
            rw [ancestors_of_parent? hq] at ha
            rw [upward_of_parent? hq]
            exact List.mem_cons_of_mem _ (ih q (parent_lt hq).1 ha)

/-- A node is no larger than those below it. -/
theorem le_of_mem_upward {id a : Nat} (h : a ∈ s.upward id) : a ≤ id := by
  induction id using Nat.strongRecOn with
  | _ id ih =>
      rcases List.mem_cons.1 h with rfl | h
      · exact Nat.le_refl _
      · cases hp : s.parent? id with
        | none =>
            rw [ancestors_root hp] at h
            cases h
        | some p =>
            rw [ancestors_of_parent? hp] at h
            have hlt := (parent_lt hp).1
            exact Nat.le_trans (ih p hlt h) (Nat.le_of_lt hlt)

theorem lt_of_mem_ancestors {id a : Nat} (h : a ∈ s.ancestors id) : a < id := by
  cases hp : s.parent? id with
  | none =>
      rw [ancestors_root hp] at h
      cases h
  | some p =>
      rw [ancestors_of_parent? hp] at h
      exact Nat.lt_of_le_of_lt (le_of_mem_upward h) (parent_lt hp).1

/-- The way from a node up to another ends with a node that hangs on that one. -/
theorem exists_last_of_mem_upward {id a : Nat} (h : a ∈ s.upward id) (hne : a ≠ id) :
    ∃ c ∈ s.upward id, s.parent? c = some a := by
  induction id using Nat.strongRecOn with
  | _ id ih =>
      rcases List.mem_cons.1 h with rfl | h
      · exact absurd rfl hne
      · cases hp : s.parent? id with
        | none =>
            rw [ancestors_root hp] at h
            cases h
        | some p =>
            rw [ancestors_of_parent? hp] at h
            by_cases hap : a = p
            · exact ⟨id, mem_upward_self id, hap ▸ hp⟩
            · obtain ⟨c, hc, hca⟩ := ih p (parent_lt hp).1 h hap
              rw [upward_of_parent? hp]
              exact ⟨c, List.mem_cons_of_mem _ hc, hca⟩

/-- On the way up no two nodes hang on the same one. -/
theorem eq_of_mem_upward {id a b p : Nat} (ha : a ∈ s.upward id) (hb : b ∈ s.upward id)
    (hap : s.parent? a = some p) (hbp : s.parent? b = some p) : a = b := by
  induction id using Nat.strongRecOn with
  | _ id ih =>
      have hstop : ∀ c, c ∈ s.ancestors id → s.parent? id = some p → s.parent? c ≠ some p := by
        intro c hc hp hcp
        rw [ancestors_of_parent? hp] at hc
        exact absurd (le_of_mem_upward hc) (Nat.not_le_of_lt (parent_lt hcp).1)
      rcases List.mem_cons.1 ha with rfl | ha
      · rcases List.mem_cons.1 hb with rfl | hb
        · rfl
        · exact absurd hbp (hstop b hb hap)
      · rcases List.mem_cons.1 hb with rfl | hb
        · exact absurd hap (hstop a ha hbp)
        · cases hq : s.parent? id with
          | none =>
              rw [ancestors_root hq] at ha
              cases ha
          | some q =>
              rw [ancestors_of_parent? hq] at ha hb
              exact ih q (parent_lt hq).1 ha hb

theorem root_mem_upward {id : Nat} (h : id < s.size) : root ∈ s.upward id := by
  induction id using Nat.strongRecOn with
  | _ id ih =>
      obtain ⟨place, hplace⟩ : ∃ place, s.place? id = some place :=
        Option.ne_none_iff_exists'.1 fun hn => Nat.not_le_of_lt h (place?_eq_none_iff.1 hn)
      have hfits := (place?_fits hplace).2
      have hup : ∀ owner, place.owner? = some owner → root ∈ s.upward id := by
        intro owner ho
        have hp : s.parent? id = some owner := by rw [parent?, hplace, ← ho]; rfl
        have hlt := parent_lt hp
        rw [upward_of_parent? hp]
        exact List.mem_cons_of_mem _ (ih owner hlt.1 (Nat.lt_trans hlt.1 h))
      cases place with
      | root =>
          cases (show id = 0 from hfits)
          exact mem_upward_self _
      | child owner => exact hup owner rfl
      | block owner => exact hup owner rfl

/-! ## The nodes of a tree -/

namespace Coherent

theorem whole (h : s.Coherent) {t : Tree} (ht : s.Shows t) : t.Whole := by
  induction ht with
  | @mk id node block children hn hb hc _ _ ihb ihc =>
      have hall : ∀ ts : List Tree, (∀ t ∈ ts, t.Whole) → WholeAll ts := by
        intro ts hts
        induction ts with
        | nil => trivial
        | cons t ts ih => exact ⟨hts t List.mem_cons_self, ih fun u hu => hts u (List.mem_cons_of_mem _ hu)⟩
      refine ⟨?_, ?_, hall children ihc⟩
      · have hclaim : node.block? = s.block? id := by
          rw [h.block?_eq, claim?, hn]
          rfl
        rw [hclaim, hb, Option.isSome_map]
      · cases block with
        | none => trivial
        | some b => exact ihb b rfl

/-- What hangs on a node is below it. -/
theorem parent?_eq_some_iff (h : s.Coherent) {t : Tree} (ht : s.Shows t) (c : Nat) :
    s.parent? c = some t.id ↔ ∃ u ∈ t.hanging, u.id = c := by
  cases ht with
  | @mk id node block children hn hb hc hbs hcs =>
      constructor
      · intro hp
        obtain ⟨place, hplace, ho⟩ := Option.bind_eq_some_iff.1 hp
        cases place with
        | root => cases ho
        | child owner =>
            cases ho
            have hmem : c ∈ s.children id := mem_children.2 hplace
            rw [hc] at hmem
            obtain ⟨u, hu, rfl⟩ := List.mem_map.1 hmem
            exact ⟨u, List.mem_append_right _ hu, rfl⟩
        | block owner =>
            cases ho
            have hclaim := (h.claim_iff id c).2 hplace
            rw [← h.block?_eq, hb] at hclaim
            obtain ⟨u, hu, rfl⟩ := Option.map_eq_some_iff.1 hclaim
            exact ⟨u, List.mem_append_left _ (Option.mem_toList.2 hu), rfl⟩
      · rintro ⟨u, hu, rfl⟩
        rcases List.mem_append.1 hu with hu | hu
        · have hu : block = some u := Option.mem_toList.1 hu
          rw [hu] at hb
          exact parent?_of_block? hb
        · refine parent?_of_mem_children ?_
          change u.id ∈ s.children id
          rw [hc]
          exact List.mem_map_of_mem hu

/-- A block and the children are different nodes. -/
theorem nodup_hanging (h : s.Coherent) {t : Tree} (ht : s.Shows t) : (t.hanging.map Tree.id).Nodup := by
  cases ht with
  | @mk id node block children hn hb hc hbs hcs =>
      have hchildren : (children.map Tree.id).Nodup := by
        rw [← hc]
        exact List.nodup_range.filter _
      cases block with
      | none => exact hchildren
      | some b =>
          have hplace : s.place? b.id = some (.block id) := by
            rw [← h.claim_iff, ← h.block?_eq]
            exact hb
          refine List.nodup_cons.2 ⟨?_, hchildren⟩
          intro hmem
          change b.id ∈ children.map Tree.id at hmem
          rw [← hc, mem_children, hplace] at hmem
          cases hmem

theorem shows_hanging {t u : Tree} (ht : s.Shows t) (hu : u ∈ t.hanging) : s.Shows u := by
  cases ht with
  | mk _ _ _ hbs hcs =>
      rcases List.mem_append.1 hu with hu | hu
      · exact hbs u (Option.mem_toList.1 hu)
      · exact hcs u hu

/-- A node is in a tree if the way up from it meets the top of the tree. -/
theorem mem_ids_iff (h : s.Coherent) {t : Tree} (ht : s.Shows t) (j : Nat) :
    j ∈ t.ids ↔ t.id ∈ s.upward j := by
  induction ht with
  | @mk id node block children hn hb hc hbs hcs ihb ihc =>
      have hall : ∀ u ∈ block.toList ++ children, j ∈ u.ids ↔ u.id ∈ s.upward j := by
        intro u hu
        rcases List.mem_append.1 hu with hu | hu
        · exact ihb u (Option.mem_toList.1 hu)
        · exact ihc u hu
      have hmk := h.parent?_eq_some_iff (.mk hn hb hc hbs hcs)
      rw [Tree.ids_mk, List.mem_cons, List.mem_flatMap]
      constructor
      · rintro (rfl | ⟨u, hu, hj⟩)
        · exact mem_upward_self j
        · exact mem_upward_of_parent? ((hall u hu).1 hj) ((hmk u.id).2 ⟨u, hu, rfl⟩)
      · intro hid
        by_cases hj : id = j
        · exact .inl hj.symm
        · obtain ⟨c, hcj, hp⟩ := exists_last_of_mem_upward hid hj
          obtain ⟨u, hu, rfl⟩ := (hmk c).1 hp
          exact .inr ⟨u, hu, (hall u hu).2 hcj⟩

theorem nodup_ids (h : s.Coherent) {t : Tree} (ht : s.Shows t) : t.ids.Nodup := by
  induction ht with
  | @mk id node block children hn hb hc hbs hcs ihb ihc =>
      have ht : s.Shows (.mk id node block children) := .mk hn hb hc hbs hcs
      have hup : ∀ u ∈ block.toList ++ children, ∀ j, j ∈ u.ids →
          u.id ∈ s.upward j ∧ s.parent? u.id = some id := by
        intro u hu j hj
        exact ⟨(h.mem_ids_iff (shows_hanging ht hu) j).1 hj,
          (h.parent?_eq_some_iff ht u.id).2 ⟨u, hu, rfl⟩⟩
      rw [Tree.ids_mk, List.nodup_cons, List.nodup_flatMap]
      refine ⟨?_, ?_, ?_⟩
      · -- the top stands above the rest, so it is smaller
        intro hmem
        obtain ⟨u, hu, hj⟩ := List.mem_flatMap.1 hmem
        obtain ⟨hle, hp⟩ := hup u hu id hj
        exact absurd (le_of_mem_upward hle) (Nat.not_le_of_lt (parent_lt hp).1)
      · intro u hu
        rcases List.mem_append.1 hu with hu | hu
        · exact ihb u (Option.mem_toList.1 hu)
        · exact ihc u hu
      · -- what is in two of the subtrees would go up to both
        have hne := List.pairwise_map.1 (h.nodup_hanging ht)
        refine hne.imp_of_mem ?_
        intro u v hu hv hne j hju hjv
        obtain ⟨hu', hpu⟩ := hup u hu j hju
        obtain ⟨hv', hpv⟩ := hup v hv j hjv
        exact hne (eq_of_mem_upward hu' hv' hpu hpv)

theorem entered (h : s.Coherent) : s.entered = .ok s.tree.ids := entered_eq (h.whole shows_tree)

/-- The tree of the root has each node once. -/
theorem perm_ids (h : s.Coherent) : s.tree.ids.Perm (List.range s.size) := by
  refine (List.perm_ext_iff_of_nodup (h.nodup_ids shows_tree) List.nodup_range).2 fun j => ?_
  have hid : s.tree.id = root := id_treeAt root s.size_pos
  rw [h.mem_ids_iff shows_tree, hid, List.mem_range]
  constructor
  · intro hroot
    by_cases hj : root = j
    · exact hj ▸ s.size_pos
    · cases hp : s.parent? j with
      | none =>
          rw [upward, ancestors_root hp, List.mem_singleton] at hroot
          exact absurd hroot hj
      | some p => exact (parent_lt hp).2
  · exact root_mem_upward

end Coherent

/-! ## Trees -/

/-- The nodes of a stylesheet make a tree, each at its one place. -/
structure IsTree (s : Sheet) : Prop where
  root : s.parent? Sheet.root = none
  /-- A node is once among the children of its parent, or it is the block of its parent. -/
  placed : ∀ id, id ≠ Sheet.root → id < s.size → ∃ p, s.parent? id = some p ∧
    Xor ((s.children p).count id = 1) (s.claim? p = some id)
  /-- No other node has it. -/
  parent : ∀ id p, id ∈ s.children p ∨ s.claim? p = some id → s.parent? id = some p
  ordered : ∀ id, (s.children id).Pairwise (· < ·)
  block : ∀ id b, s.claim? id = some b → s.blockOf id = .ok b
  entered : ∃ ids, s.entered = .ok ids ∧ ids.Perm (List.range s.size)

theorem parent?_root (s : Sheet) : s.parent? root = none := by
  cases hp : s.parent? root with
  | none => rfl
  | some p => exact absurd (parent_lt hp).1 (Nat.not_lt_zero p)

theorem pairwise_children (s : Sheet) (id : Nat) : (s.children id).Pairwise (· < ·) :=
  List.pairwise_lt_range.filter _

theorem Coherent.isTree (h : s.Coherent) : s.IsTree where
  root := parent?_root s
  placed id hroot hlt := by
    have hnodup : ∀ p, (s.children p).Nodup := fun p => List.nodup_range.filter _
    obtain ⟨place, hplace⟩ : ∃ place, s.place? id = some place :=
      Option.ne_none_iff_exists'.1 fun hn => Nat.not_le_of_lt hlt (place?_eq_none_iff.1 hn)
    have hparent : s.parent? id = place.owner? := by rw [parent?, hplace]; rfl
    cases place with
    | root => exact absurd (place?_fits hplace).2 hroot
    | child p =>
        refine ⟨p, hparent, .inl ⟨?_, ?_⟩⟩
        · exact List.count_eq_one_of_mem (hnodup p) (mem_children.2 hplace)
        · rw [h.claim_iff, hplace]
          simp
    | block p =>
        refine ⟨p, hparent, .inr ⟨(h.claim_iff p id).2 hplace, ?_⟩⟩
        have hmem : id ∉ s.children p := by
          rw [mem_children, hplace]
          simp
        rw [List.count_eq_zero_of_not_mem hmem]
        exact Nat.zero_ne_one
  parent id p := by
    rintro (hmem | hclaim)
    · exact parent?_of_mem_children hmem
    · rw [parent?, (h.claim_iff p id).1 hclaim]
      rfl
  ordered := s.pairwise_children
  block _ _ := h.blockOf_eq
  entered := ⟨_, h.entered, h.perm_ids⟩

end Sheet
end TieredStyle.Css
