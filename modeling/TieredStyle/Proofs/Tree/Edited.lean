import TieredStyle.Proofs.Tree.Listing

/-!
# Trees of an edited stylesheet

Another content for a node, or one more child of a node, changes the tree of a stylesheet there and
nowhere else.
-/
namespace TieredStyle.Css

mutual
/-- The tree with `f` done at the node `target`. -/
def Tree.modify (target : Nat) (f : Tree → Tree) : Tree → Tree
  | .mk id node block children =>
    let t := .mk id node (modifyBlock target f block) (modifyAll target f children)
    if id = target then f t else t

def modifyBlock (target : Nat) (f : Tree → Tree) : Option Tree → Option Tree
  | none => none
  | some t => some (t.modify target f)

def modifyAll (target : Nat) (f : Tree → Tree) : List Tree → List Tree
  | [] => []
  | t :: ts => t.modify target f :: modifyAll target f ts
end

/-- The node with a declaration for its content. -/
def Tree.declare (d : Declaration) : Tree → Tree
  | .mk id _ _ children => .mk id (.declaration d) none children

theorem Tree.id_declare (d : Declaration) (t : Tree) : (t.declare d).id = t.id := by
  cases t
  rfl

/-- The node with one more child. -/
def Tree.adopt (child : Tree) : Tree → Tree
  | .mk id node block children => .mk id node block (children ++ [child])

theorem Tree.id_adopt (child t : Tree) : (child.adopt t).id = t.id := by
  cases t
  rfl

variable {target : Nat} {f : Tree → Tree}

theorem modifyBlock_eq (b : Option Tree) : modifyBlock target f b = b.map (Tree.modify target f) := by
  cases b <;> rfl

theorem modifyAll_eq (ts : List Tree) : modifyAll target f ts = ts.map (Tree.modify target f) := by
  induction ts with
  | nil => rfl
  | cons t ts ih => simp [modifyAll, ih]

theorem Tree.id_modify (hf : ∀ t, (f t).id = t.id) (t : Tree) : (t.modify target f).id = t.id := by
  cases t with
  | mk id node block children =>
      rw [modify]
      split
      · exact hf _
      · rfl

theorem ids_modifyBlock (hf : ∀ t, (f t).id = t.id) (b : Option Tree) :
    (modifyBlock target f b).map Tree.id = b.map Tree.id := by
  cases b with
  | none => rfl
  | some t => exact congrArg some (t.id_modify hf)

theorem ids_modifyAll (hf : ∀ t, (f t).id = t.id) (ts : List Tree) :
    (modifyAll target f ts).map Tree.id = ts.map Tree.id := by
  simp [modifyAll_eq, Tree.id_modify hf]

mutual
theorem Tree.Whole.modify (hf : ∀ t, t.Whole → (f t).Whole) {t : Tree} (h : t.Whole) :
    (t.modify target f).Whole := by
  match t with
  | .mk id node block children =>
      have hmk : (Tree.mk id node (modifyBlock target f block) (modifyAll target f children)).Whole := by
        refine ⟨?_, WholeBlock.modify hf h.2.1, WholeAll.modify hf h.2.2⟩
        rw [h.1, modifyBlock_eq, Option.isSome_map]
      rw [Tree.modify]
      split
      · exact hf _ hmk
      · exact hmk

theorem WholeBlock.modify (hf : ∀ t, t.Whole → (f t).Whole) {b : Option Tree} (h : WholeBlock b) :
    WholeBlock (modifyBlock target f b) := by
  match b with
  | none => trivial
  | some t => exact Tree.Whole.modify hf (t := t) h

theorem WholeAll.modify (hf : ∀ t, t.Whole → (f t).Whole) {ts : List Tree} (h : WholeAll ts) :
    WholeAll (modifyAll target f ts) := by
  match ts with
  | [] => trivial
  | t :: ts => exact ⟨Tree.Whole.modify hf h.1, WholeAll.modify hf h.2⟩
end

theorem WholeAll.append {ts us : List Tree} (ht : WholeAll ts) (hu : WholeAll us) :
    WholeAll (ts ++ us) := by
  induction ts with
  | nil => exact hu
  | cons t ts ih => exact ⟨ht.1, ih ht.2⟩

/-! ## Edits of a stylesheet -/

namespace Sheet

variable {s s' : Sheet}

/-- The one stylesheet shows the trees of the other with `f` done at a node. -/
structure Edits (s s' : Sheet) (target : Nat) (f : Tree → Tree) : Prop where
  id : ∀ t, (f t).id = t.id
  whole : ∀ t, t.Whole → (f t).Whole
  shows : ∀ t, s.Shows t → s'.Shows (t.modify target f)

theorem Edits.tree_eq (h : s.Edits s' target f) : s'.tree = s.tree.modify target f := by
  refine (h.shows _ s.shows_tree).tree_eq ?_
  rw [Tree.id_modify h.id]
  exact id_treeAt root s.size_pos

theorem Edits.listing (h : s.Edits s' target f) (hs : s.tree.Whole) :
    s'.listing = .ok ((s.tree.modify target f).lines 0) := by
  have hs' : s'.tree.Whole := by
    rw [h.tree_eq]
    exact hs.modify h.whole
  rw [listing_eq_lines hs', h.tree_eq]

theorem block?_eq_some_iff {id b : Nat} : s.block? id = some b ↔
    (s.node? id).bind Node.block? = some b ∧ s.node? b = some .block ∧ s.parent? b = some id := by
  simp only [block?, Option.bind_eq_bind, Option.bind_eq_some_iff, Option.ite_none_right_eq_some,
    Option.some.injEq]
  constructor
  · rintro ⟨node, hn, _, hb, h, rfl⟩
    exact ⟨⟨node, hn, hb⟩, h⟩
  · rintro ⟨⟨node, hn, hb⟩, h⟩
    exact ⟨node, hn, b, hb, h, rfl⟩

/-- A stylesheet that agrees with another but at one node shows the trees of that, changed there. -/
theorem Shows.modify {t : Tree} (hid : ∀ t, (f t).id = t.id)
    (hframe : ∀ id < s.size, id ≠ target →
      s'.node? id = s.node? id ∧ s'.block? id = s.block? id ∧ s'.children id = s.children id)
    (htarget : ∀ node block children, s.node? target = some node →
      s.block? target = block.map Tree.id → s.children target = children.map Tree.id →
      (∀ t ∈ block, s'.Shows t) → (∀ t ∈ children, s'.Shows t) →
      s'.Shows (f (.mk target node block children)))
    (ht : s.Shows t) : s'.Shows (t.modify target f) := by
  induction ht with
  | @mk id node block children hn hb hc _ _ ihb ihc =>
      have hb : s.block? id = (modifyBlock target f block).map Tree.id := by
        rw [ids_modifyBlock hid, hb]
      have hc : s.children id = (modifyAll target f children).map Tree.id := by
        rw [ids_modifyAll hid, hc]
      have hblocks : ∀ t ∈ modifyBlock target f block, s'.Shows t := by
        intro t ht
        rw [modifyBlock_eq] at ht
        obtain ⟨u, hu, rfl⟩ := Option.map_eq_some_iff.1 ht
        exact ihb u hu
      have hchildren : ∀ t ∈ modifyAll target f children, s'.Shows t := by
        intro t ht
        rw [modifyAll_eq] at ht
        obtain ⟨u, hu, rfl⟩ := List.mem_map.1 ht
        exact ihc u hu
      rw [Tree.modify]
      split
      next he =>
        subst he
        exact htarget node _ _ hn hb hc hblocks hchildren
      next he =>
        obtain ⟨hn', hb', hc'⟩ := hframe id (lt_size_of_node? hn) he
        exact .mk (hn'.trans hn) (hb'.trans hb) (hc'.trans hc) hblocks hchildren

/-! ## Another content -/

section

variable {c : Nat} {d : Declaration} {old : Node}

theorem block?_replace? (hold : s.node? c = some old) (hne : old ≠ .block)
    (h : s.replace? c (.declaration d) = some s') (id : Nat) :
    s'.block? id = if id = c then none else s.block? id := by
  have hblock : ∀ b, s'.node? b = some .block ↔ s.node? b = some .block := by
    intro b
    rw [node?_replace? h]
    split
    next hb =>
      subst hb
      simp [hold, hne]
    next => rfl
  ext b
  rw [block?_eq_some_iff, hblock, parent?_replace? h, node?_replace? h]
  split
  · simp [Node.block?]
  · rw [block?_eq_some_iff]

theorem Shows.replace {t : Tree} (hold : s.node? c = some old) (hne : old ≠ .block)
    (h : s.replace? c (.declaration d) = some s') (ht : s.Shows t) :
    s'.Shows (t.modify c (.declare d)) := by
  refine ht.modify (Tree.id_declare d) (fun id _ he => ⟨?_, ?_, children_replace? h id⟩) ?_
  · rw [node?_replace? h, if_neg he]
  · rw [block?_replace? hold hne h, if_neg he]
  · intro node block children _ _ hc _ hchildren
    refine .mk ?_ ?_ ((children_replace? h c).trans hc) (fun t ht => by cases ht) hchildren
    · rw [node?_replace? h, if_pos rfl]
    · rw [block?_replace? hold hne h, if_pos rfl]
      rfl

/-- A declaration takes the place of another node than a block. -/
theorem edits_replace (hold : s.node? c = some old) (hne : old ≠ .block)
    (h : s.replace? c (.declaration d) = some s') : s.Edits s' c (.declare d) where
  id := Tree.id_declare d
  whole t ht := by
    cases t
    exact ⟨rfl, trivial, ht.2.2⟩
  shows _ ht := ht.replace hold hne h

end

/-! ## One more child -/

section

variable {c : Nat} {d : Declaration} (hc : (Place.child c).Fits s.size)

theorem block?_push (id : Nat) : (s.push (.declaration d) (.child c) hc).block? id =
    if id = s.size then none else s.block? id := by
  have hblock : ∀ b, (s.push (.declaration d) (.child c) hc).node? b = some .block ↔
      s.node? b = some .block := by
    intro b
    rw [node?_push]
    split
    next hb =>
      subst hb
      simp [node?_eq_none_iff.2 (Nat.le_refl _)]
    next => rfl
  ext b
  rw [block?_eq_some_iff, hblock, node?_push]
  split
  · simp [Node.block?]
  · rw [block?_eq_some_iff]
    refine and_congr_right fun _ => and_congr_right fun hb => ?_
    rw [parent?_push, if_neg (Nat.ne_of_lt (lt_size_of_node? hb))]

/-- The new node stands alone. -/
theorem shows_pushed : (s.push (.declaration d) (.child c) hc).Shows
    (.mk s.size (.declaration d) none []) := by
  refine .mk ?_ ?_ ?_ (fun t ht => by cases ht) (fun t ht => by cases ht)
  · rw [node?_push, if_pos rfl]
  · rw [block?_push, if_pos rfl]
    rfl
  · have hnone : s.children s.size = [] := by
      refine List.eq_nil_iff_forall_not_mem.2 fun id hid => ?_
      have hlt := lt_of_mem_children hid
      omega
    have hne : Place.child c ≠ .child s.size := by
      intro he
      cases he
      exact Nat.lt_irrefl s.size hc
    rw [children_push, if_neg hne, hnone]
    rfl

theorem Shows.push {t : Tree} (ht : s.Shows t) : (s.push (.declaration d) (.child c) hc).Shows
    (t.modify c (.adopt (.mk s.size (.declaration d) none []))) := by
  have hnode : ∀ id < s.size, (s.push (.declaration d) (.child c) hc).node? id = s.node? id := by
    intro id hlt
    rw [node?_push, if_neg (Nat.ne_of_lt hlt)]
  have hblock : ∀ id < s.size, (s.push (.declaration d) (.child c) hc).block? id = s.block? id := by
    intro id hlt
    rw [block?_push, if_neg (Nat.ne_of_lt hlt)]
  refine ht.modify (Tree.id_adopt _) (fun id hlt he => ⟨hnode id hlt, hblock id hlt, ?_⟩) ?_
  · rw [children_push, if_neg]
    intro h
    cases h
    exact he rfl
  · intro node block children hn hb hch hblocks hchildren
    refine .mk ((hnode c hc).trans hn) ((hblock c hc).trans hb) ?_ hblocks ?_
    · rw [children_push, if_pos rfl, hch, List.map_append]
      rfl
    · intro t ht
      rcases List.mem_append.1 ht with ht | ht
      · exact hchildren t ht
      · cases List.mem_singleton.1 ht
        exact shows_pushed hc

/-- A declaration comes in as the last child of a node. -/
theorem edits_push : s.Edits (s.push (.declaration d) (.child c) hc) c
    (.adopt (.mk s.size (.declaration d) none [])) where
  id := Tree.id_adopt _
  whole t ht := by
    cases t
    exact ⟨ht.1, ht.2.1, WholeAll.append ht.2.2 ⟨⟨rfl, trivial, trivial⟩, trivial⟩⟩
  shows _ ht := ht.push hc

end

end Sheet
end TieredStyle.Css
