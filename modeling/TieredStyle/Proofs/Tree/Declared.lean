import TieredStyle.Css.Update
import TieredStyle.Proofs.Tree.Edited
import TieredStyle.Proofs.Tree.Lines
import TieredStyle.Proofs.Tree.Ruled

/-!
# Setting a declaration

A declaration that is set in the block of a rule takes the place of the first of its property there, or
comes in at the end. In the listing of the stylesheet nothing else changes.
-/
namespace TieredStyle.Css

/-- Some declarations after one has been set among them. -/
def declared (d : Declaration) : List Declaration → List Declaration
  | [] => [d]
  | e :: es => if e.property = d.property then d :: es else e :: declared d es

theorem declared_eq (d : Declaration) (ds : List Declaration) :
    declared d ds = match ds.findIdx? (·.property = d.property) with
      | some i => ds.set i d
      | none => ds ++ [d] := by
  induction ds with
  | nil => rfl
  | cons e ds ih =>
      rw [declared, List.findIdx?_cons, ih]
      by_cases h : e.property = d.property
      · simp [h]
      · simp only [h, ↓reduceIte, decide_false, Bool.false_eq_true]
        cases ds.findIdx? (·.property = d.property) <;> rfl

/-! ## In the tree of a rule -/

section

variable {target next : Nat} {f : Tree → Tree} {ds : List Declaration}

theorem modifyAll_declarationTrees (h : target < next ∨ next + ds.length ≤ target) :
    modifyAll target f (declarationTrees next ds) = declarationTrees next ds := by
  induction ds generalizing next with
  | nil => rfl
  | cons d ds ih =>
      rw [List.length_cons] at h
      have hne : next ≠ target := by omega
      rw [declarationTrees, modifyAll, ih (by omega)]
      simp [Tree.modify, modifyBlock, modifyAll, hne]

theorem modifyAll_declare {i : Nat} (hi : i < ds.length) (d : Declaration) :
    modifyAll (next + i) (.declare d) (declarationTrees next ds) =
      declarationTrees next (ds.set i d) := by
  induction ds generalizing next i with
  | nil => cases hi
  | cons e ds ih =>
      cases i with
      | zero =>
          have htail : modifyAll next (.declare d) (declarationTrees (next + 1) ds) =
              declarationTrees (next + 1) ds := modifyAll_declarationTrees (by omega)
          simp [declarationTrees, modifyAll, Tree.modify, Tree.declare, htail]
      | succ i =>
          have htail : modifyAll (next + 1 + i) (.declare d) (declarationTrees (next + 1) ds) =
              declarationTrees (next + 1) (ds.set i d) := ih (Nat.lt_of_succ_lt_succ hi)
          rw [Nat.add_assoc, Nat.add_comm 1] at htail
          simp [declarationTrees, modifyAll, modifyBlock, Tree.modify, htail]

theorem linesAll_append (depth : Nat) (ts us : List Tree) :
    linesAll depth (ts ++ us) = linesAll depth ts ++ linesAll depth us := by
  induction ts with
  | nil => rfl
  | cons t ts ih => simp [linesAll, ih]

theorem Ruled.lines_declare {r : Ruled} {i : Nat} (hi : i < r.body.length) (d : Declaration)
    (depth : Nat) : (r.tree.modify (r.id + 2 + i) (.declare d)).lines depth =
      (Item.rule r.selector (r.body.set i d)).lines depth := by
  have hr : r.id ≠ r.id + 2 + i := by omega
  have hb : r.id + 1 ≠ r.id + 2 + i := by omega
  rw [Ruled.tree, Item.lines]
  simp [Tree.owning, Tree.modify, modifyBlock, modifyAll, hr, hb, modifyAll_declare hi, Tree.lines,
    blockLines, linesAll, linesAll_declarationTrees, Node.listed]

theorem Ruled.lines_adopt (r : Ruled) (id : Nat) (d : Declaration) (depth : Nat) :
    (r.tree.modify (r.id + 1) (.adopt (.mk id (.declaration d) none []))).lines depth =
      (Item.rule r.selector (r.body ++ [d])).lines depth := by
  have hbody : modifyAll (r.id + 1) (.adopt (.mk id (.declaration d) none []))
      (declarationTrees (r.id + 2) r.body) = declarationTrees (r.id + 2) r.body :=
    modifyAll_declarationTrees (by omega)
  rw [Ruled.tree, Item.lines]
  simp [Tree.owning, Tree.modify, modifyBlock, modifyAll, hbody, Tree.adopt, Tree.lines,
    blockLines, linesAll, linesAll_append, linesAll_declarationTrees, declarationLines, Node.listed]

end

namespace Sheet

variable {s : Sheet}

/-- Whether a node is a declaration of the property. -/
def declares (s : Sheet) (property : String) (c : Nat) : Bool :=
  match s.node? c with
  | some (.declaration e) => e.property = property
  | _ => false

theorem node?_of_declares {property : String} {c : Nat} (h : s.declares property c = true) :
    ∃ e : Declaration, s.node? c = some (.declaration e) ∧ e.property = property := by
  unfold declares at h
  split at h
  next e he => exact ⟨e, he, by simpa using h⟩
  next => cases h

theorem declareIn_eq (block : Nat) (d : Declaration) :
    s.declareIn block d = match (s.children block).find? (s.declares d.property) with
      | some c => .ok ((s.replace? c (.declaration d)).getD s)
      | none => do return (← s.append block (.declaration d)).2 := rfl

/-- Without a declaration of its property in the block, a declaration comes in at the end. -/
theorem declareIn_push {block : Nat} {d : Declaration} (hblock : s.node? block = some .block)
    (hnone : (s.children block).find? (s.declares d.property) = none) :
    ∃ h, s.declareIn block d = .ok (s.push (.declaration d) (.child block) h) := by
  obtain ⟨hlt, hcontainer⟩ := container_of_isContainer hblock rfl
  refine ⟨hlt, ?_⟩
  rw [declareIn_eq, hnone, append_eq_bind, hcontainer]
  rfl

/-- The first declaration of its property in the block gives its place to a declaration. -/
theorem declareIn_replace {block c : Nat} {d : Declaration}
    (hsome : (s.children block).find? (s.declares d.property) = some c) :
    ∃ e s', s.node? c = some (.declaration e) ∧ s.replace? c (.declaration d) = some s' ∧
      s.declareIn block d = .ok s' := by
  obtain ⟨e, he, _⟩ := node?_of_declares (List.find?_some hsome)
  obtain ⟨s', hs'⟩ : ∃ s', s.replace? c (.declaration d) = some s' := by
    refine Option.ne_none_iff_exists'.1 fun hnone => ?_
    exact Nat.not_le_of_lt (lt_size_of_node? he) (replace?_eq_none_iff.1 hnone)
  refine ⟨e, s', he, hs', ?_⟩
  rw [declareIn_eq, hsome]
  simp only [hs', Option.getD_some]

theorem find?_declares {next : Nat} {ds : List Declaration} (property : String)
    (h : ∀ t ∈ declarationTrees next ds, s.Shows t) :
    ((declarationTrees next ds).map Tree.id).find? (s.declares property) =
      (ds.findIdx? (·.property = property)).map (next + ·) := by
  induction ds generalizing next with
  | nil => rfl
  | cons d ds ih =>
      have hd : s.declares property next = decide (d.property = property) := by
        cases h _ List.mem_cons_self with
        | mk hn => rw [declares, hn]
      have htail := ih fun t ht => h t (List.mem_cons_of_mem _ ht)
      have hid : (Tree.mk next (.declaration d) none []).id = next := rfl
      rw [declarationTrees, List.map_cons, hid, List.find?_cons, hd, List.findIdx?_cons]
      cases decide (d.property = property) with
      | true => rfl
      | false =>
          simp only [htail]
          cases ds.findIdx? (·.property = property) with
          | none => rfl
          | some i => simp [Nat.add_comm, Nat.add_left_comm]

/-- Setting a declaration in the block of a rule. -/
theorem Shows.declareIn_rule {r : Ruled} (h : s.Shows r.tree) (d : Declaration) :
    ∃ s' target f, s.declareIn (r.id + 1) d = .ok s' ∧ s.Edits s' target f ∧ r.id < target ∧
      target < r.id + r.body.length + 2 ∧ ∀ depth, (r.tree.modify target f).lines depth =
        (Item.rule r.selector (declared d r.body)).lines depth := by
  obtain ⟨hids, htrees⟩ := h.children_rule
  have hfind := find?_declares d.property htrees
  rw [← hids] at hfind
  cases hi : r.body.findIdx? (·.property = d.property) with
  | none =>
      have hblock : s.node? (r.id + 1) = some .block := by
        cases h with
        | mk _ _ _ hb _ =>
            cases hb _ rfl with
            | mk hn => exact hn
      rw [hi] at hfind
      obtain ⟨hlt, hpush⟩ := declareIn_push hblock hfind
      refine ⟨_, r.id + 1, _, hpush, edits_push hlt, Nat.lt_succ_self _, by omega, fun depth => ?_⟩
      rw [r.lines_adopt, declared_eq, hi]
  | some i =>
      have hlt : i < r.body.length := (List.findIdx?_eq_some_iff_getElem.1 hi).1
      rw [hi] at hfind
      obtain ⟨e, s', he, hs', hreplace⟩ := declareIn_replace hfind
      have hne : Node.declaration e ≠ .block := fun h => by cases h
      refine ⟨s', r.id + 2 + i, .declare d, hreplace, edits_replace he hne hs', by omega, by omega,
        fun depth => ?_⟩
      rw [Ruled.lines_declare hlt, declared_eq, hi]

end Sheet

/-! ## In a list of entries -/

/-- The entries with another body for one of their rules, behind some others, from the media in force
and the number of the first node on. -/
inductive Rewrites (r : Ruled) (body : List Declaration) :
    Option String → Nat → List Ruled → List Item → List Item → Prop
  | here {items : List Item} : Rewrites r body r.media r.id []
      (.rule r.selector r.body :: items) (.rule r.selector body :: items)
  | there {m : Option String} {next : Nat} {before : List Ruled} {item : Item}
      {items items' : List Item} :
      Rewrites r body (item.mediaAfter m) (next + item.count) before items items' →
      Rewrites r body m next (item.ruled m next ++ before) (item :: items) (item :: items')
  | inside {m : Option String} {next : Nat} {before : List Ruled} {name params : String}
      {inner inner' items : List Item} :
      Rewrites r body (if isMedia name then some params else m) (next + 2) before inner inner' →
      Rewrites r body m next before (.group name params inner :: items)
        (.group name params inner' :: items)

mutual
theorem Item.modify_tree {target next : Nat} {f : Tree → Tree} (item : Item)
    (h : target < next ∨ next + item.count ≤ target) :
    (item.tree next).modify target f = item.tree next := by
  match item with
  | .rule selector body =>
      rw [Item.count] at h
      have hne : next ≠ target := by omega
      have hne' : next + 1 ≠ target := by omega
      have hbody : modifyAll target f (declarationTrees (next + 2) body) =
          declarationTrees (next + 2) body := modifyAll_declarationTrees (by omega)
      simp [Item.tree, Tree.owning, Tree.modify, modifyBlock, modifyAll, hne, hne', hbody]
  | .statement name params =>
      rw [Item.count] at h
      have hne : next ≠ target := by omega
      simp [Item.tree, Tree.modify, modifyBlock, modifyAll, hne]
  | .descriptors name params body =>
      rw [Item.count] at h
      have hne : next ≠ target := by omega
      have hne' : next + 1 ≠ target := by omega
      have hbody : modifyAll target f (declarationTrees (next + 2) body) =
          declarationTrees (next + 2) body := modifyAll_declarationTrees (by omega)
      simp [Item.tree, Tree.owning, Tree.modify, modifyBlock, modifyAll, hne, hne', hbody]
  | .group name params body =>
      rw [Item.count] at h
      have hne : next ≠ target := by omega
      have hne' : next + 1 ≠ target := by omega
      have hbody : modifyAll target f (itemTrees (next + 2) body) = itemTrees (next + 2) body :=
        modifyAll_itemTrees body (by omega)
      simp [Item.tree, Tree.owning, Tree.modify, modifyBlock, modifyAll, hne, hne', hbody]

theorem modifyAll_itemTrees {target next : Nat} {f : Tree → Tree} (items : List Item)
    (h : target < next ∨ next + itemCount items ≤ target) :
    modifyAll target f (itemTrees next items) = itemTrees next items := by
  match items with
  | [] =>
      rw [itemTrees]
      rfl
  | item :: items =>
      rw [itemCount] at h
      rw [itemTrees, modifyAll, item.modify_tree (by omega), modifyAll_itemTrees items (by omega)]
end

namespace Rewrites

variable {r : Ruled} {body : List Declaration} {m : Option String} {next : Nat} {before : List Ruled}
  {items items' : List Item}

theorem bounds (h : Rewrites r body m next before items items') :
    next ≤ r.id ∧ r.id + r.body.length + 2 ≤ next + itemCount items := by
  induction h with
  | here =>
      rw [itemCount, Item.count]
      omega
  | there _ ih =>
      rw [itemCount]
      omega
  | inside _ ih =>
      rw [itemCount, Item.count]
      omega

theorem itemRuled_eq (h : Rewrites r body m next before items items') :
    ∃ after, itemRuled m next items = before ++ r :: after := by
  induction h with
  | here =>
      rw [itemRuled, Item.ruled]
      exact ⟨_, rfl⟩
  | there _ ih =>
      obtain ⟨after, hafter⟩ := ih
      rw [itemRuled, hafter, ← List.append_assoc]
      exact ⟨after, rfl⟩
  | inside _ ih =>
      obtain ⟨after, hafter⟩ := ih
      rw [itemRuled, Item.ruled, hafter, List.append_assoc]
      exact ⟨_, rfl⟩

theorem append_right (h : Rewrites r body m next before items items') (post : List Item) :
    Rewrites r body m next before (items ++ post) (items' ++ post) := by
  induction h with
  | here => exact .here
  | there _ ih => exact .there ih
  | inside h _ => exact .inside h

theorem append_left (pre : List Item)
    (h : Rewrites r body (mediaAfterAll m pre) (next + itemCount pre) before items items') :
    Rewrites r body m next (itemRuled m next pre ++ before) (pre ++ items) (pre ++ items') := by
  induction pre generalizing m next with
  | nil =>
      rw [mediaAfterAll, itemCount] at h
      rw [itemRuled]
      exact h
  | cons item pre ih =>
      rw [mediaAfterAll, itemCount, ← Nat.add_assoc] at h
      rw [itemRuled, List.append_assoc]
      exact .there (ih h)

/-- An edit that gives one rule another body in the listing does so in the listing of all entries. -/
theorem lines_modify {target : Nat} {f : Tree → Tree}
    (h : Rewrites r body m next before items items') (hlo : r.id ≤ target)
    (hhi : target < r.id + r.body.length + 2)
    (hr : ∀ depth, (r.tree.modify target f).lines depth = (Item.rule r.selector body).lines depth)
    (depth : Nat) :
    linesAll depth (modifyAll target f (itemTrees next items)) = itemLines depth items' := by
  induction h generalizing depth with
  | @here items =>
      have hitems : modifyAll target f (itemTrees (r.id + (Item.rule r.selector r.body).count) items) =
          itemTrees (r.id + (Item.rule r.selector r.body).count) items :=
        modifyAll_itemTrees items (by rw [Item.count]; omega)
      have hrule : (Item.rule r.selector r.body).tree r.id = r.tree := by
        rw [Item.tree]
        rfl
      rw [itemTrees, modifyAll, linesAll, hitems, hrule, hr, linesAll_itemTrees, itemLines]
  | @there m next before item items items' h ih =>
      have hbounds := h.bounds
      rw [itemTrees, modifyAll, linesAll, item.modify_tree (by omega), item.lines_tree, ih, itemLines]
  | @inside m next before name params inner inner' items h ih =>
      have hbounds := h.bounds
      have hne : next ≠ target := by omega
      have hne' : next + 1 ≠ target := by omega
      have hitems : modifyAll target f (itemTrees (next + (Item.group name params inner).count) items) =
          itemTrees (next + (Item.group name params inner).count) items :=
        modifyAll_itemTrees items (by rw [Item.count]; omega)
      have htree : ((Item.group name params inner).tree next).modify target f =
          .owning next (.atRule name params) (modifyAll target f (itemTrees (next + 2) inner)) := by
        simp [Item.tree, Tree.owning, Tree.modify, modifyBlock, modifyAll, hne, hne']
      rw [itemTrees, modifyAll, linesAll, hitems, htree, Tree.lines_owning fun _ => rfl, ih,
        linesAll_itemTrees, itemLines, Item.lines]

end Rewrites

/-! ## Updating -/

/-- Whether an update with this selector, under this media if any, means the rule. -/
def Ruled.meant (selector : String) (media : Option String) (r : Ruled) : Bool :=
  r.selector = selector && media.all fun params => r.media = some params

namespace Sheet

/-- The first rule that is meant, among the rules of the entries. -/
theorem findRule?_ofItems (items : List Item) (selector : String) (media : Option String) :
    (ofItems items).findRule? selector media =
      .ok (((itemRuled none 1 items).find? (Ruled.meant selector media)).map Ruled.id) := by
  rw [findRule?, foldUnderMedia_ofItems]
  · exact foldlM_first (Ruled.meant selector media) Ruled.id none
  · intro m id node acc hk
    cases node with
    | rule selector b => exact absurd rfl hk
    | stylesheet => rfl
    | block => rfl
    | atRule name params b => rfl
    | declaration d => rfl

/-- Setting a declaration in a rule of some entries gives the listing of the entries with it set. -/
theorem listing_declareIn {r : Ruled} {d : Declaration} {before : List Ruled} {items items' : List Item}
    (h : Rewrites r (declared d r.body) none 1 before items items') :
    ∃ s', (ofItems items).declareIn (r.id + 1) d = .ok s' ∧
      s'.listing = (ofItems items').listing := by
  have hr : r ∈ itemRuled none 1 items := by
    obtain ⟨after, hafter⟩ := h.itemRuled_eq
    simp [hafter]
  obtain ⟨s', target, f, hs', hedits, hlo, hhi, hrule⟩ :=
    (shows_ruled_ofItems r hr).declareIn_rule d
  have hne : 0 ≠ target := by omega
  have hlines := h.lines_modify (Nat.le_of_lt hlo) hhi hrule 1
  refine ⟨s', hs', ?_⟩
  rw [hedits.listing (whole_ofItems items), tree_ofItems, listing_ofItems]
  simp [Tree.modify, modifyBlock, hne, Tree.lines, blockLines, hlines, Node.listed]

end Sheet
end TieredStyle.Css
