import TieredStyle.Proofs.Tree.Edited
import TieredStyle.Proofs.Tree.Entered

/-!
# Trees of a stylesheet that grows

An entry that is hung on a node comes in as a tree of its own, the last child of that node.
-/
namespace TieredStyle.Css

/-! ## Edits elsewhere -/

section

variable {target : Nat} {f : Tree → Tree}

mutual
theorem Tree.modify_of_not_mem (t : Tree) (h : target ∉ t.ids) : t.modify target f = t := by
  match t with
  | .mk id node block children =>
      rw [Tree.ids_mk, List.mem_cons, List.mem_flatMap, not_or] at h
      have hall : ∀ u ∈ block.toList ++ children, target ∉ u.ids := fun u hu hmem => h.2 ⟨u, hu, hmem⟩
      rw [Tree.modify, if_neg (Ne.symm h.1),
        modifyBlock_of_not_mem block fun u hu =>
          hall u (List.mem_append_left _ (Option.mem_toList.2 hu)),
        modifyAll_of_not_mem children fun u hu => hall u (List.mem_append_right _ hu)]

theorem modifyBlock_of_not_mem (block : Option Tree) (h : ∀ t ∈ block, target ∉ t.ids) :
    modifyBlock target f block = block := by
  match block with
  | none => rfl
  | some t => rw [modifyBlock, Tree.modify_of_not_mem t (h t rfl)]

theorem modifyAll_of_not_mem (ts : List Tree) (h : ∀ t ∈ ts, target ∉ t.ids) :
    modifyAll target f ts = ts := by
  match ts with
  | [] => rfl
  | t :: ts =>
      rw [modifyAll, Tree.modify_of_not_mem t (h t List.mem_cons_self),
        modifyAll_of_not_mem ts fun u hu => h u (List.mem_cons_of_mem _ hu)]
end

end

theorem allEvents_append (ts us : List Tree) : allEvents (ts ++ us) = allEvents ts ++ allEvents us := by
  induction ts with
  | nil => rfl
  | cons t ts ih => rw [List.cons_append, allEvents, allEvents, ih, List.append_assoc]

namespace Sheet

variable {s s' : Sheet}

/-! ## Hanging a tree on a node -/

/-- One stylesheet is the other with a tree hung on one of its nodes. -/
structure Hangs (s s' : Sheet) (c : Nat) (child : Tree) : Prop where
  node? : ∀ id < s.size, s'.node? id = s.node? id
  children : ∀ id < s.size,
    s'.children id = if id = c then s.children id ++ [child.id] else s.children id
  shows : s'.Shows child

theorem Hangs.block? {c : Nat} {child : Tree} (h : s.Hangs s' c child) (hs : s.Coherent)
    (hs' : s'.Coherent) {id : Nat} (hid : id < s.size) : s'.block? id = s.block? id := by
  rw [hs.block?_eq, hs'.block?_eq, claim?, claim?, h.node? id hid]

theorem Hangs.tree_eq {c : Nat} {child : Tree} (h : s.Hangs s' c child) (hs : s.Coherent)
    (hs' : s'.Coherent) : s'.tree = s.tree.modify c (.adopt child) := by
  have hshows : s'.Shows (s.tree.modify c (.adopt child)) := by
    refine shows_tree.modify (Tree.id_adopt child) (fun id hid hne => ⟨h.node? id hid, ?_, ?_⟩) ?_
    · exact h.block? hs hs' hid
    · rw [h.children id hid, if_neg hne]
    · intro node block children hn hb hc hblocks hchildren
      have hlt := lt_size_of_node? hn
      refine .mk ((h.node? c hlt).trans hn) ((h.block? hs hs' hlt).trans hb) ?_ hblocks ?_
      · rw [h.children c hlt, if_pos rfl, hc, List.map_append]
        rfl
      · intro t ht
        rcases List.mem_append.1 ht with ht | ht
        · exact hchildren t ht
        · cases List.mem_singleton.1 ht
          exact h.shows
  refine hshows.tree_eq ?_
  rw [Tree.id_modify (Tree.id_adopt child)]
  exact id_treeAt root s.size_pos

theorem children_of_size_le {id : Nat} (h : s.size ≤ id) : s.children id = [] := by
  refine List.eq_nil_iff_forall_not_mem.2 fun c hc => ?_
  have hlt := lt_of_mem_children hc
  omega

theorem children_extend {l : List Slot} (hfit : FitFrom s.size l) (id : Nat) :
    (s.extend l hfit).children id = s.children id ++ childrenFrom s.size id l := by
  have hslots : (s.extend l hfit).slots.toList = s.slots.toList ++ l := by simp [extend]
  rw [children_eq, hslots, childrenFrom_append, ← children_eq, Nat.zero_add, Array.length_toList]
  rfl

theorem holds_extend {l : List Slot} (hfit : FitFrom s.size l) : (s.extend l hfit).Holds s.size l where
  slot i hi := by
    have hle : s.slots.size ≤ s.size + i := Nat.le_add_right _ _
    rw [extend, Array.getElem?_append_right hle]
    simp [size, hi]
  children id hle _ := by rw [children_extend, children_of_size_le hle, List.nil_append]

/-- An entry that is hung on a node. -/
theorem hangs_extend (item : Item) {c : Nat} (hc : c < s.size)
    (hfit : FitFrom s.size (item.slots c s.size)) :
    s.Hangs (s.extend (item.slots c s.size) hfit) c (item.tree s.size) where
  node? id hid := by
    rw [node?_of_lt hid]
    exact node?_extend (node?_of_lt hid)
  children id hid := by
    rw [children_extend, item.childrenFrom_slots (.inl hid), item.id_tree]
    split
    · rfl
    · exact List.append_nil _
  shows := item.shows_tree hc (holds_extend hfit)

/-! ## Events around what is hung on a node -/

/-- The events of a tree with the child, that comes in at the end of some of them. -/
def Adopts (t : Tree) (c : Nat) (pre post : List Event) : Prop :=
  t.events = pre ++ post ∧
    ∀ child, (t.modify c (.adopt child)).events = pre ++ (child.events ++ post)

theorem Coherent.adopts_root (h : s.Coherent) : ∃ pre post, Adopts s.tree root pre post := by
  have hroot : s.tree.id = root := id_treeAt root s.size_pos
  have hshows := s.shows_tree
  cases ht : s.tree with
  | mk id node block children =>
      rw [ht] at hroot hshows
      cases (show id = root from hroot)
      have hnodup := h.nodup_ids hshows
      rw [Tree.ids_mk, List.nodup_cons] at hnodup
      have hnot : ∀ u ∈ block.toList ++ children, root ∉ u.ids := fun u hu hmem =>
        hnodup.1 (List.mem_flatMap.2 ⟨u, hu, hmem⟩)
      refine ⟨.enter root node :: (blockEvents block ++ allEvents children), [.leave root node],
        by simp [Tree.events], fun child => ?_⟩
      rw [Tree.modify, if_pos rfl,
        modifyBlock_of_not_mem block fun u hu =>
          hnot u (List.mem_append_left _ (Option.mem_toList.2 hu)),
        modifyAll_of_not_mem children fun u hu => hnot u (List.mem_append_right _ hu)]
      simp [Tree.adopt, Tree.events, allEvents_append, allEvents]

end Sheet
end TieredStyle.Css
