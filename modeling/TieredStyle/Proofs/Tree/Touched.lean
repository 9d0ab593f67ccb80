import TieredStyle.Proofs.Tree.Ordered
import TieredStyle.Proofs.Tree.Put

/-!
# What an update touches

Whatever the stylesheet is, an update that succeeds changes one declaration or hangs one tree on one node. All
other nodes stay as they are, each where it hangs and with the children that it has.
-/
namespace TieredStyle.Css
namespace Sheet

variable {s s' : Sheet} {selector : String} {media : Option String} {d : Declaration}

/-! ## One declaration or one tree -/

/-- Another declaration stands in the place of one, and nothing else is different. -/
structure Swaps (s s' : Sheet) (c : Nat) (d : Declaration) : Prop where
  node? : ∀ id, s'.node? id = if id = c then some (.declaration d) else s.node? id
  place? : ∀ id, s'.place? id = s.place? id
  children : ∀ id, s'.children id = s.children id
  size : s'.size = s.size

/-- A tree hangs on a node, behind the children that this has, and nothing else is different. -/
structure Gains (s s' : Sheet) (c : Nat) (child : Tree) : Prop extends s.Hangs s' c child where
  place? : ∀ id < s.size, s'.place? id = s.place? id
  size : s'.size = s.size + child.ids.length

theorem swaps_replace {c : Nat} (h : s.replace? c (.declaration d) = some s') : s.Swaps s' c d where
  node? := node?_replace? h
  place? := place?_replace? h
  children := children_replace? h
  size := size_replace? h

theorem place?_extend {l : List Slot} (hfit : FitFrom s.size l) {id : Nat} (hid : id < s.size) :
    (s.extend l hfit).place? id = s.place? id := by
  have hlt : id < s.slots.size := hid
  rw [place?, place?, extend, Array.getElem?_append_left hlt]

theorem gains_extend (item : Item) {c : Nat} (hc : c < s.size)
    (hfit : FitFrom s.size (item.slots c s.size)) :
    s.Gains (s.extend (item.slots c s.size) hfit) c (item.tree s.size) where
  toHangs := hangs_extend item hc hfit
  place? _ := place?_extend hfit
  size := by simp [item.ids_tree, item.length_slots]

theorem gains_push {b : Nat} (hlt : (Place.child b).Fits s.size) :
    s.Gains (s.push (.declaration d) (.child b) hlt) b (.mk s.size (.declaration d) none []) where
  node? id hid := by simp [node?_push, Nat.ne_of_lt hid]
  children id _ := by simp [children_push, Tree.id, eq_comm]
  shows := by
    have hne : b ≠ s.size := Nat.ne_of_lt hlt
    have hn : (s.push (.declaration d) (.child b) hlt).node? s.size = some (.declaration d) := by
      simp [node?_push]
    refine .mk hn ?_ ?_ (fun t ht => by cases ht) (fun t ht => by cases ht)
    · simp [block?, hn, Node.block?]
    · simp [children_push, hne, children_of_size_le]
  place? id hid := by simp [place?_push, Nat.ne_of_lt hid]
  size := by simp [Tree.ids_mk]

/-! ## The ways of setting a declaration -/

/-- The ways in which an update touches a stylesheet. -/
inductive Touch
  | overwritten
  | declared
  | ruled
  | grouped

/-- The number of nodes that come in. -/
def Touch.added : Touch → Nat
  | overwritten => 0
  | declared => 1
  | ruled => 3
  | grouped => 5

theorem Touch.added_injective {touch touch' : Touch} (h : touch.added = touch'.added) : touch = touch' := by
  cases touch <;> cases touch' <;> first | rfl | cases h

inductive Touches (s s' : Sheet) (selector : String) (media : Option String) (d : Declaration) :
    Touch → Prop
  /-- The first declaration of the property in the rule that is meant takes another value. -/
  | overwritten {r b c : Nat} {e : Declaration} : s.findRule? selector media = .ok (some r) →
      s.blockOf r = .ok b → (s.children b).find? (s.declares d.property) = some c →
      s.node? c = some (.declaration e) → e.property = d.property → s.Swaps s' c d →
      s.Touches s' selector media d .overwritten
  /-- The declaration comes in at the end of the rule that is meant. -/
  | declared {r b : Nat} : s.findRule? selector media = .ok (some r) → s.blockOf r = .ok b →
      s.node? b = some .block → (s.children b).find? (s.declares d.property) = none →
      s.Gains s' b (.mk s.size (.declaration d) none []) → s.Touches s' selector media d .declared
  /-- A rule with the declaration comes in at the end of the root or of the first `@media` rule there with these
  parameters. -/
  | ruled {c : Nat} : s.findRule? selector media = .ok none → s.Takes media c →
      s.Gains s' c ((Item.rule selector [d]).tree s.size) → s.Touches s' selector media d .ruled
  /-- An `@media` rule with such a rule comes in at the end of the root. -/
  | grouped {params : String} : s.findRule? selector media = .ok none → media = some params →
      s.topMedia? params = none →
      s.Gains s' root ((Item.group "media" params [.rule selector [d]]).tree s.size) →
      s.Touches s' selector media d .grouped

theorem Touches.size {touch : Touch} (h : s.Touches s' selector media d touch) :
    s'.size = s.size + touch.added := by
  cases h with
  | overwritten _ _ _ _ _ hswaps => exact hswaps.size
  | declared _ _ _ _ hgains => simpa [Tree.ids_mk, Touch.added] using hgains.size
  | ruled _ _ hgains => simpa [Item.ids_tree, Item.count, Touch.added] using hgains.size
  | grouped _ _ _ hgains => simpa [Item.ids_tree, Item.count, itemCount, Touch.added] using hgains.size

theorem Puts.exists_touch (h : s.Puts selector media d s') :
    ∃ touch, s.Touches s' selector media d touch := by
  cases h with
  | replaced hfound hblock hfind hold hs' =>
      have he := List.find?_some hfind
      simp only [declares, hold, decide_eq_true_eq] at he
      exact ⟨_, .overwritten hfound hblock hfind hold he (swaps_replace hs')⟩
  | declared hlt hfound hblock hfind =>
      exact ⟨_, .declared hfound hblock (node?_of_blockOf hblock).2 hfind (gains_push hlt)⟩
  | ruled hfit hnone htakes hx _ =>
      exact ⟨_, .ruled hnone htakes (gains_extend _ (lt_size_of_node? hx) hfit)⟩
  | grouped hfit hnone hmedia htop hx _ =>
      exact ⟨_, .grouped hnone hmedia htop (gains_extend _ (lt_size_of_node? hx) hfit)⟩

/-- An update that succeeds touches a stylesheet in exactly one way, and so many nodes come in as belong to
that way. -/
theorem update_touches {property value : String} {t : Target} (h : s.update property value t = .ok s') :
    ∃ d selector media, Declaration.read property value = .ok d ∧ t.read = .ok (selector, media) ∧
      ∃ touch, s.Touches s' selector media (d.marked t.important) touch ∧
        (∀ touch', s.Touches s' selector media (d.marked t.important) touch' → touch' = touch) ∧
        s'.size = s.size + touch.added := by
  obtain ⟨d, selector, media, hd, ht, hput⟩ := update_eq_ok.1 h
  obtain ⟨touch, htouch⟩ := (puts_of_put hput).exists_touch
  refine ⟨d, selector, media, hd, ht, touch, htouch, fun touch' htouch' => ?_, htouch.size⟩
  exact Touch.added_injective (Nat.add_left_cancel (htouch'.size.symm.trans htouch.size))

/-- There is no such `@media` rule yet, so that one comes in, with a rule in it. -/
theorem update_touches_media : ∃ s s', read ".a\x7bcolor:red\x7d" = .ok s ∧
    s.update "color" "blue" { selector := ".a", media := some "m" } = .ok s' ∧
    s.Touches s' ".a" (some "m") ⟨"color", ⟨"blue", false⟩⟩ .grouped := by
  let s := ofItems [.rule ".a" [⟨"color", ⟨"red", false⟩⟩]]
  let s' := (Edit.update "color" "blue" { selector := ".a", media := some "m" }).after s
  have hread : read ".a\x7bcolor:red\x7d" = .ok s := by decide +kernel
  have hupdate : s.update "color" "blue" { selector := ".a", media := some "m" } = .ok s' := by
    decide +kernel
  refine ⟨s, s', hread, hupdate, ?_⟩
  obtain ⟨d, selector, media, hd, ht, touch, htouch, -, hsize⟩ := update_touches hupdate
  have hd' : Declaration.read "color" "blue" = .ok ⟨"color", ⟨"blue", false⟩⟩ := by decide +kernel
  cases hd.symm.trans hd'
  have ht' : Target.read { selector := ".a", media := some "m" } = .ok (".a", some "m") := by decide +kernel
  cases ht.symm.trans ht'
  have hgrown : s'.size = s.size + Touch.grouped.added := by decide +kernel
  cases Touch.added_injective (Nat.add_left_cancel (hsize.symm.trans hgrown))
  exact htouch

end Sheet
end TieredStyle.Css
