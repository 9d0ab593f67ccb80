import TieredStyle.Proofs.Grammar.Shaped
import TieredStyle.Proofs.Tree.Entered

/-!
# The shape of a stylesheet that is read

What holds of the entries that are read holds of the nodes: it is said of each tree of the entries with the
nodes above it, and found again at each node of the stylesheet.
-/
namespace TieredStyle.Css

/-! ## Everywhere in a tree -/

/-- The predicate holds of each node with what hangs on it, below the nodes above it. -/
inductive Tree.Everywhere (P : List Node → Tree → Prop) : List Node → Tree → Prop
  | mk {above : List Node} {id : Nat} {node : Node} {block : Option Tree} {children : List Tree} :
      P above (.mk id node block children) → (∀ t ∈ block, Everywhere P (node :: above) t) →
      (∀ t ∈ children, Everywhere P (node :: above) t) → Everywhere P above (.mk id node block children)

namespace Sheet

variable {s : Sheet}

/-- The nodes above a node, the nearest first. -/
def nodesAbove (s : Sheet) (id : Nat) : List Node := (s.ancestors id).filterMap s.node?

theorem nodesAbove_of_parent? {id p : Nat} {node : Node} (hp : s.parent? id = some p)
    (hn : s.node? p = some node) : s.nodesAbove id = node :: s.nodesAbove p := by
  rw [nodesAbove, ancestors_of_parent? hp, List.filterMap_cons, hn]
  rfl

theorem length_nodesAbove (s : Sheet) (id : Nat) : (s.nodesAbove id).length = (s.ancestors id).length := by
  induction id using Nat.strongRecOn with
  | _ id ih =>
      cases hp : s.parent? id with
      | none =>
          rw [nodesAbove, ancestors_root hp]
          rfl
      | some p =>
          have hlt := parent_lt hp
          rw [nodesAbove_of_parent? hp (node?_of_lt (Nat.lt_trans hlt.1 hlt.2)), List.length_cons,
            ih p hlt.1, ancestors_of_parent? hp, List.length_cons]

theorem Coherent.exists_of_everywhere (h : s.Coherent) {P : List Node → Tree → Prop}
    {above : List Node} {t : Tree} (hall : t.Everywhere P above) (ht : s.Shows t)
    (habove : s.nodesAbove t.id = above) {id : Nat} (hid : t.id ∈ s.upward id) :
    ∃ u, u.id = id ∧ s.Shows u ∧ P (s.nodesAbove id) u := by
  induction hall with
  | @mk above j node block children hP _ _ ihb ihc =>
      by_cases hj : j = id
      · subst hj
        exact ⟨_, rfl, ht, habove ▸ hP⟩
      · obtain ⟨c, hc, hp⟩ := exists_last_of_mem_upward hid hj
        obtain ⟨u, hu, rfl⟩ := (h.parent?_eq_some_iff ht c).1 hp
        have hshows := shows_hanging ht hu
        have hnode : s.node? j = some node := by
          cases ht with
          | mk hn => exact hn
        have habove' : s.nodesAbove u.id = node :: above := by
          rw [nodesAbove_of_parent? hp hnode]
          exact congrArg _ habove
        rcases List.mem_append.1 hu with hu | hu
        · exact ihb u (Option.mem_toList.1 hu) hshows habove' hc
        · exact ihc u hu hshows habove' hc

/-- What holds everywhere in the tree of a stylesheet holds at each of its nodes. -/
theorem Coherent.exists_of_everywhere_tree (h : s.Coherent) {P : List Node → Tree → Prop}
    (hall : s.tree.Everywhere P []) {id : Nat} (hid : id < s.size) :
    ∃ t, t.id = id ∧ s.Shows t ∧ P (s.nodesAbove id) t := by
  have hroot : s.tree.id = root := id_treeAt root s.size_pos
  apply h.exists_of_everywhere hall shows_tree
  · rw [hroot, nodesAbove, ancestors_root (parent?_root _), List.filterMap_nil]
  · rw [hroot]
    exact root_mem_upward hid

end Sheet

/-! ## What is read is proper -/

namespace Node

/-- An at-rule whose block holds entries. -/
def isGroup : Node → Bool
  | .atRule name _ b => holdsItems name && b.isSome
  | _ => false

def IsEntry (node : Node) : Prop := node.kind = .rule ∨ node.kind = .atRule

/-- What may be a child of a node, depending on the node above that. -/
def Admits (node : Node) (owner : Option Node) (child : Node) : Prop :=
  match node with
  | .stylesheet => child.IsEntry
  | .block => if owner.any isGroup then child.IsEntry else child.kind = .declaration
  | _ => False

def Proper : Node → Prop
  | .rule selector b => selector ≠ "" ∧ b.isSome = true
  | .declaration d => d.Named
  | _ => True

end Node

structure Tree.Proper (above : List Node) (t : Tree) : Prop where
  nesting : (t.node :: above).countP Node.isGroup ≤ maxNesting
  depth : above.length ≤ 2 * maxNesting + 3
  node : t.node.Proper
  children : ∀ c ∈ t.children, t.node.Admits above.head? c.node

section

variable {above : List Node} {d next : Nat}

theorem Item.isEntry_tree (next : Nat) (item : Item) : (item.tree next).node.IsEntry := by
  cases item with
  | rule => exact .inl (by rw [Item.tree]; rfl)
  | statement => exact .inr (by rw [Item.tree]; rfl)
  | descriptors => exact .inr (by rw [Item.tree]; rfl)
  | group => exact .inr (by rw [Item.tree]; rfl)

theorem isEntry_of_mem_itemTrees {items : List Item} {t : Tree} (h : t ∈ itemTrees next items) :
    t.node.IsEntry := by
  induction items generalizing next with
  | nil =>
      rw [itemTrees] at h
      cases h
  | cons item items ih =>
      rw [itemTrees] at h
      rcases List.mem_cons.1 h with rfl | h
      · exact item.isEntry_tree next
      · exact ih h

theorem isDeclaration_of_mem_declarationTrees {ds : List Declaration} {t : Tree}
    (h : t ∈ declarationTrees next ds) : t.node.kind = .declaration := by
  induction ds generalizing next with
  | nil => cases h
  | cons d ds ih =>
      rcases List.mem_cons.1 h with rfl | h
      · rfl
      · exact ih h

theorem everywhere_declarationTrees {ds : List Declaration} (hds : ∀ d ∈ ds, d.Named)
    (hcount : above.countP Node.isGroup ≤ maxNesting) (hlen : above.length ≤ 2 * maxNesting + 3) :
    ∀ t ∈ declarationTrees next ds, t.Everywhere Tree.Proper above := by
  induction ds generalizing next with
  | nil =>
      intro t ht
      cases ht
  | cons d ds ih =>
      obtain ⟨hd, hds⟩ := List.forall_mem_cons.1 hds
      intro t ht
      rcases List.mem_cons.1 ht with rfl | ht
      · refine .mk ⟨?_, hlen, hd, fun c hc => by cases hc⟩ (fun t ht => by cases ht)
          (fun t ht => by cases ht)
        rw [List.countP_cons_of_neg]
        · exact hcount
        · exact Bool.false_ne_true
      · exact ih hds t ht

/-- A node that owns a block, and what hangs on the block. -/
theorem everywhere_owning {make : Option Nat → Node} {children : List Tree}
    (hcount : (make (some (next + 1)) :: above).countP Node.isGroup ≤ maxNesting)
    (hlen : above.length + 2 ≤ 2 * maxNesting + 3) (hnode : (make (some (next + 1))).Proper)
    (hadmits : ∀ c ∈ children, Node.block.Admits (some (make (some (next + 1)))) c.node)
    (hall : ∀ c ∈ children, c.Everywhere Tree.Proper (.block :: make (some (next + 1)) :: above)) :
    (Tree.owning next make children).Everywhere Tree.Proper above := by
  refine .mk ⟨hcount, by omega, hnode, fun c hc => by cases hc⟩ ?_ (fun t ht => by cases ht)
  intro t ht
  cases ht
  refine .mk ⟨?_, by rw [List.length_cons]; omega, trivial, hadmits⟩ (fun t ht => by cases ht) hall
  exact (List.countP_cons_of_neg Bool.false_ne_true).trans_le hcount

/-- A node whose block holds declarations. -/
theorem everywhere_declaring {make : Option Nat → Node} {ds : List Declaration}
    (hgroup : (make (some (next + 1))).isGroup = false) (hnode : (make (some (next + 1))).Proper)
    (hds : ∀ d ∈ ds, d.Named) (hcount : above.countP Node.isGroup ≤ maxNesting)
    (hlen : above.length + 2 ≤ 2 * maxNesting + 3) :
    (Tree.owning next make (declarationTrees (next + 2) ds)).Everywhere Tree.Proper above := by
  have hcount' : (make (some (next + 1)) :: above).countP Node.isGroup ≤ maxNesting := by
    rw [List.countP_cons_of_neg (by rw [hgroup]; exact Bool.false_ne_true)]
    exact hcount
  refine everywhere_owning hcount' hlen hnode (fun c hc => ?_)
    (everywhere_declarationTrees hds ?_ hlen)
  · simp [Node.Admits, hgroup, isDeclaration_of_mem_declarationTrees hc]
  · exact (List.countP_cons_of_neg Bool.false_ne_true).trans_le hcount'

mutual
theorem Item.everywhere_tree {above : List Node} {d next : Nat} (item : Item) (h : item.Shaped d)
    (hd : d ≤ maxNesting) (hlen : above.length = 2 * d + 1) (hcount : above.countP Node.isGroup = d) :
    (item.tree next).Everywhere Tree.Proper above := by
  match item with
  | .rule selector body =>
      rw [Item.Shaped] at h
      rw [Item.tree]
      exact everywhere_declaring rfl ⟨h.1, rfl⟩ h.2 (by omega) (by omega)
  | .statement name params =>
      rw [Item.tree]
      refine .mk ⟨?_, by omega, trivial, fun c hc => by cases hc⟩ (fun t ht => by cases ht)
        (fun t ht => by cases ht)
      rw [List.countP_cons_of_neg]
      · omega
      · simp [Tree.node, Node.isGroup]
  | .descriptors name params body =>
      rw [Item.Shaped] at h
      rw [Item.tree]
      exact everywhere_declaring (by simp [Node.isGroup, h.1]) trivial h.2 (by omega) (by omega)
  | .group name params body =>
      rw [Item.Shaped] at h
      obtain ⟨hname, hlt, hbody⟩ := h
      have hgroup : (Node.atRule name params (some (next + 1))).isGroup = true := by
        simp [Node.isGroup, hname]
      have hcount' : (.atRule name params (some (next + 1)) :: above).countP Node.isGroup = d + 1 := by
        rw [List.countP_cons_of_pos hgroup, hcount]
      rw [Item.tree]
      refine everywhere_owning (by omega) (by omega) trivial (fun c hc => ?_)
        (everywhere_itemTrees body hbody hlt ?_ ?_)
      · simp [Node.Admits, hgroup, isEntry_of_mem_itemTrees hc]
      · simp only [List.length_cons, hlen]
        omega
      · exact (List.countP_cons_of_neg Bool.false_ne_true).trans hcount'

theorem everywhere_itemTrees {above : List Node} {d next : Nat} (items : List Item)
    (h : ItemsShaped d items) (hd : d ≤ maxNesting) (hlen : above.length = 2 * d + 1)
    (hcount : above.countP Node.isGroup = d) :
    ∀ t ∈ itemTrees next items, t.Everywhere Tree.Proper above := by
  match items with
  | [] =>
      rw [itemTrees]
      intro t ht
      cases ht
  | item :: items =>
      rw [ItemsShaped] at h
      rw [itemTrees]
      intro t ht
      rcases List.mem_cons.1 ht with rfl | ht
      · exact item.everywhere_tree h.1 hd hlen hcount
      · exact everywhere_itemTrees items h.2 hd hlen hcount t ht
end

end

namespace Sheet

variable {s : Sheet}

/-- What hangs on each node is proper there. -/
def AllProper (s : Sheet) : Prop :=
  ∀ id < s.size, ∃ t, t.id = id ∧ s.Shows t ∧ t.Proper (s.nodesAbove id)

theorem allProper_ofItems {items : List Item} (h : ItemsShaped 0 items) : (ofItems items).AllProper := by
  have hall : (ofItems items).tree.Everywhere Tree.Proper [] := by
    rw [tree_ofItems]
    refine .mk ⟨?_, Nat.zero_le _, trivial, fun c hc => isEntry_of_mem_itemTrees hc⟩
      (fun t ht => by cases ht) (everywhere_itemTrees items h (Nat.zero_le _) rfl rfl)
    exact Nat.zero_le _
  exact fun id hid => (coherent_ofItems items).exists_of_everywhere_tree hall hid

theorem AllProper.proper_node (h : s.AllProper) {id : Nat} {node : Node} (hn : s.node? id = some node) :
    node.Proper := by
  obtain ⟨t, rfl, hshows, ht⟩ := h id (lt_size_of_node? hn)
  rw [← Option.some.inj (hshows.node?_eq.symm.trans hn)]
  exact ht.node

/-- What a node admits is what its children are. -/
theorem AllProper.admits (h : s.AllProper) {id : Nat} {node : Node} (hn : s.node? id = some node)
    {c : Nat} (hc : c ∈ s.children id) :
    ∃ child, s.node? c = some child ∧ node.Admits (s.nodesAbove id).head? child := by
  obtain ⟨t, rfl, hshows, ht⟩ := h id (lt_size_of_node? hn)
  have hchild : ∃ u ∈ t.children, u.id = c ∧ s.Shows u := by
    cases hshows with
    | @mk id _ _ _ _ _ hchildren _ hcs =>
        change c ∈ s.children id at hc
        rw [hchildren] at hc
        obtain ⟨u, hu, rfl⟩ := List.mem_map.1 hc
        exact ⟨u, hu, rfl, hcs u hu⟩
  obtain ⟨u, hu, rfl, hu'⟩ := hchild
  rw [← Option.some.inj (hshows.node?_eq.symm.trans hn)]
  exact ⟨u.node, hu'.node?_eq, ht.children u hu⟩

/-- What the block of a node admits. -/
theorem AllProper.admits_block (h : s.AllProper) (hs : s.Coherent) {id b : Nat} {node : Node}
    (hn : s.node? id = some node) (hb : node.block? = some b) {c : Nat} (hc : c ∈ s.children b) :
    ∃ child, s.node? c = some child ∧ Node.block.Admits (some node) child := by
  have hclaim : s.claim? id = some b := by rw [claim?, hn]; exact hb
  have hplace := (hs.claim_iff id b).1 hclaim
  have hparent : s.parent? b = some id := by rw [parent?, hplace]; rfl
  obtain ⟨child, hchild, hadmits⟩ := h.admits (hs.block id b hplace) hc
  rw [nodesAbove_of_parent? hparent hn] at hadmits
  exact ⟨child, hchild, hadmits⟩

/-! ## The shape of the grammar -/

/-- A rule or an at-rule. -/
def IsEntry (s : Sheet) (id : Nat) : Prop :=
  (∃ selector b, s.node? id = some (.rule selector b)) ∨
    ∃ name params b, s.node? id = some (.atRule name params b)

def IsDeclaration (s : Sheet) (id : Nat) : Prop := ∃ d, s.node? id = some (.declaration d)

/-- An at-rule with a block that holds entries. -/
def isGroup (s : Sheet) (id : Nat) : Bool := (s.node? id).any Node.isGroup

/-- What the grammar says about the nodes. -/
structure Shaped (s : Sheet) : Prop where
  root : ∀ c ∈ s.children root, s.IsEntry c
  group : ∀ id name params b, s.node? id = some (.atRule name params (some b)) →
    holdsItems name = true → ∀ c ∈ s.children b, s.IsEntry c
  descriptors : ∀ id name params b, s.node? id = some (.atRule name params (some b)) →
    holdsItems name = false → ∀ c ∈ s.children b, s.IsDeclaration c
  rule : ∀ id selector b, s.node? id = some (.rule selector b) → selector ≠ "" ∧
    ∃ block, b = some block ∧ s.blockOf id = .ok block ∧ ∀ c ∈ s.children block, s.IsDeclaration c
  property : ∀ id d, s.node? id = some (.declaration d) → readProperty d.property = .ok d.property
  /-- Counted are a node and those above it. -/
  nesting : ∀ id < s.size, (s.upward id).countP s.isGroup ≤ 128
  depth : ∀ id < s.size, (s.ancestors id).length ≤ 259

theorem isEntry_iff {id : Nat} {node : Node} (h : s.node? id = some node) :
    s.IsEntry id ↔ node.IsEntry := by
  cases node <;> simp [IsEntry, Node.IsEntry, h, Node.kind]

theorem isDeclaration_iff {id : Nat} {node : Node} (h : s.node? id = some node) :
    s.IsDeclaration id ↔ node.kind = .declaration := by
  cases node <;> simp [IsDeclaration, h, Node.kind]

theorem countP_nodesAbove (s : Sheet) (id : Nat) :
    (s.nodesAbove id).countP Node.isGroup = (s.ancestors id).countP s.isGroup := by
  rw [nodesAbove, List.countP_filterMap]
  congr 1
  funext a
  rw [isGroup]
  cases s.node? a <;> rfl

theorem AllProper.nesting_le (h : s.AllProper) {id : Nat} (hid : id < s.size) :
    (s.upward id).countP s.isGroup ≤ maxNesting := by
  obtain ⟨t, rfl, hshows, ht⟩ := h id hid
  have hself : s.isGroup t.id = t.node.isGroup := by
    rw [isGroup, hshows.node?_eq]
    rfl
  have hcount := ht.nesting
  rw [List.countP_cons, countP_nodesAbove, ← hself] at hcount
  rw [upward, List.countP_cons]
  exact hcount

theorem AllProper.shaped (h : s.AllProper) (hs : s.Coherent)
    (hroot : s.node? Sheet.root = some .stylesheet) : s.Shaped where
  root c hc := by
    obtain ⟨child, hchild, hadmits⟩ := h.admits hroot hc
    exact (isEntry_iff hchild).2 hadmits
  group id name params b hn hname c hc := by
    obtain ⟨child, hchild, hadmits⟩ := h.admits_block hs hn rfl hc
    rw [Node.Admits, if_pos (by simp [Node.isGroup, hname])] at hadmits
    exact (isEntry_iff hchild).2 hadmits
  descriptors id name params b hn hname c hc := by
    obtain ⟨child, hchild, hadmits⟩ := h.admits_block hs hn rfl hc
    rw [Node.Admits, if_neg (by simp [Node.isGroup, hname])] at hadmits
    exact (isDeclaration_iff hchild).2 hadmits
  rule id selector b hn := by
    obtain ⟨hselector, hsome⟩ := h.proper_node hn
    obtain ⟨block, rfl⟩ := Option.isSome_iff_exists.1 hsome
    have hclaim : s.claim? id = some block := by rw [claim?, hn]; rfl
    refine ⟨hselector, block, rfl, hs.blockOf_eq hclaim, fun c hc => ?_⟩
    obtain ⟨child, hchild, hadmits⟩ := h.admits_block hs hn rfl hc
    rw [Node.Admits, if_neg (by simp [Node.isGroup])] at hadmits
    exact (isDeclaration_iff hchild).2 hadmits
  property id d hn := h.proper_node hn
  nesting id hid := h.nesting_le hid
  depth id hid := by
    obtain ⟨t, rfl, _, ht⟩ := h id hid
    rw [← length_nodesAbove]
    exact ht.depth

/-- Whatever is read has the shape of the grammar. -/
theorem shaped_read {css : String} {s : Sheet} (h : read css = .ok s) : s.Shaped := by
  obtain ⟨items, hitems, h⟩ := bind_eq_ok.1 h
  cases h
  exact (allProper_ofItems (itemsShaped_of_readItems hitems)).shaped (coherent_ofItems items) rfl

/-- A group inside a group, with rules and descriptors. -/
theorem shaped_read_nested : ∃ s, read
    "@media a\x7b@SUPPORTS b\x7b.c\x7bcolor:red\x7d\x7d@font-face\x7bsrc:x\x7d\x7d@import d;" = .ok s ∧
      s.size = 12 ∧ s.Shaped := by
  have hread : read
      "@media a\x7b@SUPPORTS b\x7b.c\x7bcolor:red\x7d\x7d@font-face\x7bsrc:x\x7d\x7d@import d;" =
        .ok (ofItems [.group "media" "a" [
          .group "SUPPORTS" "b" [.rule ".c" [⟨"color", ⟨"red", false⟩⟩]],
          .descriptors "font-face" "" [⟨"src", ⟨"x", false⟩⟩]], .statement "import" "d"]) := by
    decide +kernel
  exact ⟨_, hread, by decide +kernel, shaped_read hread⟩

end Sheet
end TieredStyle.Css
