import Mathlib.Data.List.Find
import TieredStyle.Proofs.Style.Projected
import TieredStyle.Proofs.Tree.Declared
import TieredStyle.Proofs.Tree.Found
import TieredStyle.Proofs.Tree.Runs

/-!
# Setting a declaration

There are four ways of setting a declaration in a stylesheet. In each of them the declaration is afterwards the
first of its property in the rule that is meant, unless a rule that has been appended is not found again.
-/
namespace TieredStyle.Css
namespace Sheet

variable {s s₁ : Sheet} {selector : String} {media : Option String} {d₁ d₂ : Declaration}

/-- Sets a declaration, with all texts read. -/
def put (s : Sheet) (selector : String) (media : Option String) (d : Declaration) :
    Except ShapeError Sheet := do
  match ← s.findRule? selector media with
  | some rule => s.declareIn (← s.blockOf rule) d
  | none => s.declareRule selector media d

/-! ## In a rule that is there -/

theorem node?_of_blockOf {id b : Nat} (h : s.blockOf id = .ok b) :
    s.claim? id = some b ∧ s.node? b = some .block := by
  rw [blockOf] at h
  cases hn : s.node? id with
  | none =>
      rw [hn] at h
      cases h
  | some node =>
      rw [hn] at h
      cases hb : s.block? id with
      | none =>
          simp only [hb] at h
          cases h
      | some b' =>
          simp only [hb] at h
          cases h
          obtain ⟨hclaim, hnode, _⟩ := block?_eq_some_iff.1 hb
          exact ⟨hclaim, hnode⟩

theorem put_of_found {r b : Nat} (hfound : s.findRule? selector media = .ok (some r))
    (hblock : s.blockOf r = .ok b) (d : Declaration) : s.put selector media d = s.declareIn b d := by
  rw [put, hfound]
  change (do
    let b ← s.blockOf r
    s.declareIn b d) = _
  rw [hblock]
  rfl

/-! ## In a rule that is appended -/

theorem slots_rule (c next : Nat) (selector : String) (d : Declaration) :
    (Item.rule selector [d]).slots c next = [⟨.rule selector (some (next + 1)), .child c⟩,
      ⟨.block, .block next⟩, ⟨.declaration d, .child (next + 1)⟩] := by
  simp [Item.slots, declarationSlots]

theorem slots_media (c next : Nat) (params selector : String) (d : Declaration) :
    (Item.group "media" params [.rule selector [d]]).slots c next =
      [⟨.atRule "media" params (some (next + 1)), .child c⟩, ⟨.block, .block next⟩,
        ⟨.rule selector (some (next + 3)), .child (next + 1)⟩, ⟨.block, .block (next + 2)⟩,
        ⟨.declaration d, .child (next + 3)⟩] := by
  simp [Item.slots, itemSlots, declarationSlots]

theorem appendWithBlock_eq {c : Nat} {x : Node} (hx : s.node? c = some x) (hc : x.isContainer = true)
    (make : Option Nat → Node) (hmake : ∀ b, (make b).block? = b) :
    ∃ hfit t, t = s.extend [⟨make (some (s.size + 1)), .child c⟩, ⟨.block, .block s.size⟩] hfit ∧
      s.appendWithBlock c make = .ok (s.size, t) ∧ t.blockOf s.size = .ok (s.size + 1) ∧
      t.node? (s.size + 1) = some .block := by
  obtain ⟨hlt, hcontainer⟩ := container_of_isContainer hx hc
  have hfits : (Place.child c).Fits s.size := hlt
  have hfits' : (Place.block s.size).Fits (s.push (make (some (s.size + 1))) (.child c) hfits).size := by
    rw [size_push]
    exact Nat.lt_succ_self _
  have happend : s.appendWithBlock c make = .ok (s.size,
      (s.push (make (some (s.size + 1))) (.child c) hfits).push .block (.block s.size) hfits') := by
    rw [appendWithBlock_eq_bind, hcontainer]
    rfl
  refine ⟨⟨hlt, Nat.lt_succ_self _, trivial⟩, _, slots_ext (Array.ext' ?_), happend, ?_, ?_⟩
  · simp [extend, push]
  · simp [blockOf, block?, node?_push, parent?_push, hmake, Place.owner?]
  · rw [node?_push, size_push, if_pos rfl]

theorem exists_container_of_appendWithBlock {c : Nat} {make : Option Nat → Node} {r : Nat × Sheet}
    (h : s.appendWithBlock c make = .ok r) : ∃ x, s.node? c = some x ∧ x.isContainer = true := by
  rw [appendWithBlock_eq_bind] at h
  obtain ⟨_, hcontainer, _⟩ := bind_eq_ok.1 h
  obtain ⟨rfl, x, hx, hc⟩ := container_eq_ok hcontainer
  exact ⟨x, hx, hc⟩

/-- Appends a rule with one declaration to a container. -/
def appendDeclaring (s : Sheet) (c : Nat) (selector : String) (d : Declaration) :
    Except ShapeError Sheet := do
  let (rule, s) ← s.appendRule c selector
  return (← s.append (← s.blockOf rule) (.declaration d)).2

theorem appendDeclaring_eq {c : Nat} {x : Node} (hx : s.node? c = some x) (hc : x.isContainer = true)
    (selector : String) (d : Declaration) : ∃ hfit,
      s.appendDeclaring c selector d = .ok (s.extend ((Item.rule selector [d]).slots c s.size) hfit) := by
  obtain ⟨_, t, ht, happend, hblock, hnode⟩ := appendWithBlock_eq hx hc (.rule selector) fun _ => rfl
  obtain ⟨hlt, hcontainer⟩ := container_of_isContainer hnode rfl
  refine ⟨Item.fitFrom_slots (lt_size_of_node? hx) _, ?_⟩
  rw [appendDeclaring, appendRule_eq, happend]
  change (do
    let b ← t.blockOf s.size
    let r ← t.append b (.declaration d)
    return r.2) = _
  rw [hblock]
  change (do
    let r ← t.append (s.size + 1) (.declaration d)
    return r.2) = _
  rw [append_eq_bind, hcontainer]
  refine congrArg Except.ok (slots_ext (Array.ext' ?_))
  simp [push, ht, extend, slots_rule]

theorem declareRule_eq (s : Sheet) (selector : String) (media : Option String) (d : Declaration) :
    s.declareRule selector media d =
      s.mediaContainer media >>= fun r => r.2.appendDeclaring r.1 selector d := rfl

/-- A rule in a container that is there. -/
theorem declareRule_of_container {c : Nat} {x : Node}
    (hm : s.mediaContainer media = .ok (c, s)) (hx : s.node? c = some x) (hc : x.isContainer = true)
    (selector : String) (d : Declaration) : ∃ hfit, s.declareRule selector media d =
      .ok (s.extend ((Item.rule selector [d]).slots c s.size) hfit) := by
  obtain ⟨hfit, happend⟩ := appendDeclaring_eq hx hc selector d
  refine ⟨hfit, ?_⟩
  rw [declareRule_eq, hm]
  exact happend

/-- A rule in an `@media` rule that is made for it. -/
theorem declareRule_of_media {x : Node} {params : String}
    (hm : s.topMedia? params = none) (hx : s.node? root = some x) (hc : x.isContainer = true)
    (selector : String) (d : Declaration) : ∃ hfit, s.declareRule selector (some params) d =
      .ok (s.extend ((Item.group "media" params [.rule selector [d]]).slots root s.size) hfit) := by
  obtain ⟨_, t, ht, happend, hblock, hnode⟩ :=
    appendWithBlock_eq hx hc (.atRule "media" params) fun _ => rfl
  have hmedia : s.mediaContainer (some params) = .ok (s.size + 1, t) := by
    rw [mediaContainer, hm]
    simp only [appendMedia_eq_bind, appendAtRule_eq, happend]
    simp only [bind, Except.bind, hblock]
    rfl
  obtain ⟨_, hrule⟩ := appendDeclaring_eq hnode rfl selector d
  refine ⟨Item.fitFrom_slots (lt_size_of_node? hx) _, ?_⟩
  rw [declareRule_eq, hmedia]
  refine hrule.trans (congrArg Except.ok (slots_ext (Array.ext' ?_)))
  simp [ht, extend, slots_rule, slots_media, size]

theorem put_of_none (h : s.findRule? selector media = .ok none) (d : Declaration) :
    s.put selector media d = s.declareRule selector media d := by
  rw [put, h]
  rfl

theorem put_of_container {c : Nat} {x : Node} (hm : s.mediaContainer media = .ok (c, s))
    (hx : s.node? c = some x) (hc : x.isContainer = true)
    (hnone : s.findRule? selector media = .ok none) (d : Declaration) : ∃ hfit,
      s.put selector media d = .ok (s.extend ((Item.rule selector [d]).slots c s.size) hfit) := by
  obtain ⟨hfit, hdeclare⟩ := declareRule_of_container hm hx hc selector d
  exact ⟨hfit, (put_of_none hnone d).trans hdeclare⟩

theorem of_topMedia? {params : String} {m : Nat} (h : s.topMedia? params = some m) :
    m ∈ s.children root ∧ ∃ node, s.node? m = some node ∧ node.media? = some params := by
  refine ⟨List.mem_of_find?_eq_some h, ?_⟩
  have hmedia := List.find?_some h
  exact Option.bind_eq_some_iff.1 (of_decide_eq_true hmedia)

theorem mediaContainer_of_topMedia? {params : String} {m b : Nat} (htop : s.topMedia? params = some m)
    (hblock : s.blockOf m = .ok b) : s.mediaContainer (some params) = .ok (b, s) := by
  rw [mediaContainer, htop]
  change (do
    let c ← s.blockOf m
    return (c, s)) = _
  rw [hblock]
  rfl

/-- The container of a rule that is appended under media is the block of an `@media` rule. -/
theorem exists_mediaContainer {params : String} {m : Nat} (htop : s.topMedia? params = some m)
    (hfound : s.findRule? selector (some params) = .ok none)
    (h : s.put selector (some params) d₁ = .ok s₁) : ∃ b, s.mediaContainer (some params) = .ok (b, s) ∧
      s.claim? m = some b ∧ s.node? b = some .block := by
  obtain ⟨_, hfound', hdeclare⟩ := bind_eq_ok.1 h
  cases hfound.symm.trans hfound'
  obtain ⟨_, hm, _⟩ := bind_eq_ok.1 hdeclare
  rw [mediaContainer, htop] at hm
  obtain ⟨b, hblock, _⟩ := bind_eq_ok.1 hm
  exact ⟨b, mediaContainer_of_topMedia? htop hblock, node?_of_blockOf hblock⟩

/-! ## The ways of setting a declaration -/

/-- The node that takes a rule under the given media, if no `@media` rule has to be made for it. -/
inductive Takes (s : Sheet) : Option String → Nat → Prop
  | root : s.Takes none root
  | media {params : String} {m b : Nat} : s.topMedia? params = some m → s.blockOf m = .ok b →
      s.Takes (some params) b

theorem Takes.mediaContainer {c : Nat} (h : s.Takes media c) : s.mediaContainer media = .ok (c, s) := by
  cases h with
  | root => rfl
  | media htop hblock => exact mediaContainer_of_topMedia? htop hblock

/-- A declaration is set in the rule that is meant, in the place of another one or at the end, or else with a
rule of its own, for which an `@media` rule may have to be made. -/
inductive Puts (s : Sheet) (selector : String) (media : Option String) (d : Declaration) : Sheet → Prop
  | replaced {r b c : Nat} {e : Declaration} {s' : Sheet} :
      s.findRule? selector media = .ok (some r) → s.blockOf r = .ok b →
      (s.children b).find? (s.declares d.property) = some c → s.node? c = some (.declaration e) →
      s.replace? c (.declaration d) = some s' → s.Puts selector media d s'
  | declared {r b : Nat} (hlt : (Place.child b).Fits s.size) :
      s.findRule? selector media = .ok (some r) → s.blockOf r = .ok b →
      (s.children b).find? (s.declares d.property) = none →
      s.Puts selector media d (s.push (.declaration d) (.child b) hlt)
  | ruled {c : Nat} {x : Node} (hfit : FitFrom s.size ((Item.rule selector [d]).slots c s.size)) :
      s.findRule? selector media = .ok none → s.Takes media c → s.node? c = some x →
      x.isContainer = true → s.Puts selector media d (s.extend ((Item.rule selector [d]).slots c s.size) hfit)
  | grouped {params : String} {x : Node}
      (hfit : FitFrom s.size ((Item.group "media" params [.rule selector [d]]).slots root s.size)) :
      s.findRule? selector media = .ok none → media = some params → s.topMedia? params = none →
      s.node? root = some x → x.isContainer = true → s.Puts selector media d
        (s.extend ((Item.group "media" params [.rule selector [d]]).slots root s.size) hfit)

theorem puts_of_put {d : Declaration} (h : s.put selector media d = .ok s₁) : s.Puts selector media d s₁ := by
  obtain ⟨found, hfound, hdeclare⟩ := bind_eq_ok.1 h
  cases found with
  | some r =>
      obtain ⟨b, hblock, hdeclare⟩ := bind_eq_ok.1 hdeclare
      cases hfind : (s.children b).find? (s.declares d.property) with
      | some c =>
          obtain ⟨e, s', hold, hs', hdeclare'⟩ := declareIn_replace hfind
          cases hdeclare'.symm.trans hdeclare
          exact .replaced hfound hblock hfind hold hs'
      | none =>
          obtain ⟨hlt, hdeclare'⟩ := declareIn_push (node?_of_blockOf hblock).2 hfind
          cases hdeclare'.symm.trans hdeclare
          exact .declared hlt hfound hblock hfind
  | none =>
      have hruled : ∀ {c x}, s.Takes media c → s.node? c = some x → x.isContainer = true →
          s.Puts selector media d s₁ := by
        intro c x htakes hx hc
        obtain ⟨hfit, hput⟩ := put_of_container htakes.mediaContainer hx hc hfound d
        cases hput.symm.trans h
        exact .ruled hfit hfound htakes hx hc
      obtain ⟨⟨c, t⟩, hm, hrule⟩ := bind_eq_ok.1 hdeclare
      cases media with
      | none =>
          cases hm
          obtain ⟨⟨_, _⟩, happend, _⟩ := bind_eq_ok.1 hrule
          obtain ⟨x, hx, hc⟩ := exists_container_of_appendWithBlock happend
          exact hruled .root hx hc
      | some params =>
          cases htop : s.topMedia? params with
          | some m =>
              rw [mediaContainer, htop] at hm
              obtain ⟨b, hblock, _⟩ := bind_eq_ok.1 hm
              exact hruled (.media htop hblock) (node?_of_blockOf hblock).2 rfl
          | none =>
              rw [mediaContainer, htop] at hm
              simp only [appendMedia_eq_bind] at hm
              obtain ⟨⟨_, _⟩, happend, _⟩ := bind_eq_ok.1 hm
              obtain ⟨x, hx, hc⟩ := exists_container_of_appendWithBlock happend
              obtain ⟨hfit, hdeclare'⟩ := declareRule_of_media htop hx hc selector d
              cases ((put_of_none hfound d).trans hdeclare').symm.trans h
              exact .grouped hfit hfound rfl htop hx hc

/-! ## The declaration that has been set -/

/-- The declaration is the first of its property in the rule that is meant. -/
inductive Bears (s : Sheet) (selector : String) (media : Option String) (d : Declaration) (c : Nat) : Prop
  | mk {r b : Nat} : s.findRule? selector media = .ok (some r) → s.blockOf r = .ok b →
      (s.children b).find? (s.declares d.property) = some c → s.node? c = some (.declaration d) →
      s.Bears selector media d c

/-- A second declaration of its property takes its place. -/
theorem Bears.put {c : Nat} (h : s.Bears selector media d₁ c) (hp : d₁.property = d₂.property) :
    ∃ s₂, s.replace? c (.declaration d₂) = some s₂ ∧ s.put selector media d₂ = .ok s₂ := by
  obtain ⟨hfound, hblock, hfind, _⟩ := h
  obtain ⟨_, s₂, _, hs₂, hdeclare⟩ := declareIn_replace (hp ▸ hfind)
  exact ⟨s₂, hs₂, (put_of_found hfound hblock d₂).trans hdeclare⟩

theorem declares_replace {c : Nat} {d e : Declaration} {p : String} (hold : s.node? c = some (.declaration e))
    (he : e.property = d.property) (h : s.replace? c (.declaration d) = some s₁) (x : Nat) :
    s₁.declares p x = s.declares p x := by
  rw [declares, declares, node?_replace? h]
  by_cases hx : x = c
  · simp [hx, hold, he]
  · simp [hx]

theorem declares_push {c : Nat} {d : Declaration} {p : String} (hc : (Place.child c).Fits s.size)
    {x : Nat} (hx : x < s.size) :
    (s.push (.declaration d) (.child c) hc).declares p x = s.declares p x := by
  rw [declares, declares, node?_push, if_neg (Nat.ne_of_lt hx)]

theorem Coherent.bears_replace (hs : s.Coherent) {r b c : Nat} {d e : Declaration}
    (hfound : s.findRule? selector media = .ok (some r)) (hblock : s.blockOf r = .ok b)
    (hfind : (s.children b).find? (s.declares d.property) = some c)
    (hold : s.node? c = some (.declaration e)) (h : s.replace? c (.declaration d) = some s₁) :
    s₁.Bears selector media d c := by
  have he : e.property = d.property := by simpa [declares, hold] using List.find?_some hfind
  have hclaim : s₁.claim? r = some b := by
    rw [← (node?_of_blockOf hblock).1, claim?, claim?, node?_replace? h]
    split
    next hr => simp [hr, hold, Node.block?]
    next => rfl
  refine .mk ((findRule?_replace (hs.whole shows_tree) hold h).trans hfound)
    ((hs.replace hold h).blockOf_eq hclaim) ?_ ?_
  · rw [children_replace? h, ← hfind]
    congr 1
    exact funext (declares_replace hold he h)
  · simp [node?_replace? h]

theorem Coherent.bears_push (hs : s.Coherent) {r b : Nat} {d : Declaration}
    (hfound : s.findRule? selector media = .ok (some r)) (hblock : s.blockOf r = .ok b)
    (hfind : (s.children b).find? (s.declares d.property) = none) (hlt : (Place.child b).Fits s.size) :
    (s.push (.declaration d) (.child b) hlt).Bears selector media d s.size := by
  obtain ⟨hclaim, hb⟩ := node?_of_blockOf hblock
  have hr : r ≠ s.size := Nat.ne_of_lt (Nat.lt_trans (hs.claim_lt hclaim).1 hlt)
  have hold : (s.children b).find? ((s.push (.declaration d) (.child b) hlt).declares d.property) =
      none := by
    rw [List.find?_eq_none] at hfind ⊢
    intro x hx
    rw [declares_push hlt (lt_of_mem_children hx).2]
    exact hfind x hx
  have hclaim' : (s.push (.declaration d) (.child b) hlt).claim? r = some b := by
    rw [claim?_push, if_neg hr, hclaim]
  refine .mk ((findRule?_push (hs.whole shows_tree) hlt).trans hfound)
    ((hs.push_child rfl hb rfl hlt).blockOf_eq hclaim') ?_ ?_
  · rw [children_push, if_pos rfl, List.find?_append, hold, Option.none_or]
    simp [declares, node?_push]
  · simp [node?_push]

/-- A declaration that stands alone in the rule that is meant. -/
theorem bears_of_shows {r : Nat} {d : Declaration} (hfound : s.findRule? selector media = .ok (some r))
    (hshows : s.Shows (Ruled.tree ⟨media, r, selector, [d]⟩)) : s.Bears selector media d (r + 2) := by
  obtain ⟨hids, htrees⟩ := hshows.children_rule
  refine .mk hfound hshows.blockOf_rule ?_ (htrees _ List.mem_cons_self).node?_eq
  rw [hids, find?_declares d.property htrees, List.findIdx?_cons]
  simp

/-- What an update means once an entry is hung on a node, if it meant nothing before. -/
theorem Coherent.findRule?_extend (hs : s.Coherent) {item : Item} {c : Nat} {x : Node}
    (hfit : FitFrom s.size (item.slots c s.size)) (hx : s.node? c = some x) (hc : x.isContainer = true)
    {pre post : List Event} (hadopts : Adopts s.tree c pre post)
    (hnone : s.findRule? selector media = .ok none) :
    (s.extend (item.slots c s.size) hfit).findRule? selector media =
      .ok ((meantIn selector media (pre.foldl Event.media none) (item.tree s.size).events).or
        (meantIn selector media
          ((item.tree s.size).events.foldl Event.media (pre.foldl Event.media none)) post)) := by
  have hs' : (s.extend (item.slots c s.size) hfit).Coherent := hs.extend_item hx hc rfl item hfit
  have htree := (hangs_extend item (lt_size_of_node? hx) hfit).tree_eq hs hs'
  have hpre : meantIn selector media none pre = none := by
    rw [findRule?_eq (hs.whole shows_tree), hadopts.1, meantIn_append] at hnone
    exact (Option.or_eq_none_iff.1 (Except.ok.inj hnone)).1
  rw [findRule?_eq (hs'.whole shows_tree), htree, hadopts.2, meantIn_append, hpre, Option.none_or,
    meantIn_append]

/-- What an update means among events is what it means among the rules that are seen there. -/
theorem meantIn_of_seen {m m' : Option String} {es : List Event} {rs : List Ruled} (h : Seen m es rs m')
    (selector : String) (media : Option String) :
    meantIn selector media m es = (rs.find? (Ruled.meant selector media)).map Ruled.id := by
  have hrule : ∀ v : Visit, (v.isRule && v.meant selector media) = v.meant selector media := by
    intro v
    cases hv : v.node <;> simp [Visit.isRule, Visit.meant, hv, Node.kind]
  have hfind : (visits m es).find? (Visit.meant selector media) =
      (rs.map Ruled.visit).find? (Visit.meant selector media) := by
    rw [← h.1, List.find?_filter]
    simp [hrule]
  rw [meantIn, hfind, List.find?_map, Option.map_map]
  rfl

theorem Coherent.bears_rule (hs : s.Coherent) {c : Nat} {x : Node} {d : Declaration}
    (hfit : FitFrom s.size ((Item.rule selector [d]).slots c s.size)) (hx : s.node? c = some x)
    (hc : x.isContainer = true) (hnone : s.findRule? selector media = .ok none) {pre post : List Event}
    (hadopts : Adopts s.tree c pre post)
    (hforce : ∀ params ∈ media, pre.foldl Event.media none = some params) :
    (s.extend ((Item.rule selector [d]).slots c s.size) hfit).Bears selector media d (s.size + 2) := by
  have hall : (media.all fun params => pre.foldl Event.media none = some params) = true := by
    cases media with
    | none => rfl
    | some params => simp [hforce params rfl]
  have hmeant : meantIn selector media (pre.foldl Event.media none)
      ((Item.rule selector [d]).tree s.size).events = some s.size := by
    rw [meantIn_of_seen (Item.seen_tree _ _ _), Item.ruled]
    simp [Ruled.meant, hall]
  have hfound := hs.findRule?_extend hfit hx hc hadopts hnone
  rw [hmeant, Option.some_or] at hfound
  have hshows := (hangs_extend (.rule selector [d]) (lt_size_of_node? hx) hfit).shows
  rw [Item.tree] at hshows
  exact bears_of_shows hfound hshows

theorem Coherent.bears_group (hs : s.Coherent) {x : Node} {params : String} {d : Declaration}
    (hfit : FitFrom s.size ((Item.group "media" params [.rule selector [d]]).slots root s.size))
    (hx : s.node? root = some x) (hc : x.isContainer = true)
    (hnone : s.findRule? selector (some params) = .ok none) :
    (s.extend ((Item.group "media" params [.rule selector [d]]).slots root s.size) hfit).Bears
      selector (some params) d (s.size + 4) := by
  obtain ⟨pre, post, hadopts⟩ := hs.adopts_root
  have hruled : (Item.group "media" params [.rule selector [d]]).ruled (pre.foldl Event.media none) s.size =
      [⟨some params, s.size + 2, selector, [d]⟩] := by
    simp [Item.ruled, itemRuled, isMedia_media]
  have hmeant : meantIn selector (some params) (pre.foldl Event.media none)
      ((Item.group "media" params [.rule selector [d]]).tree s.size).events = some (s.size + 2) := by
    rw [meantIn_of_seen (Item.seen_tree _ _ _), hruled]
    simp [Ruled.meant]
  have hfound := hs.findRule?_extend hfit hx hc hadopts hnone
  rw [hmeant, Option.some_or] at hfound
  have hshows := (hangs_extend (.group "media" params [.rule selector [d]]) (lt_size_of_node? hx) hfit).shows
  refine bears_of_shows hfound (Item.shows_ruled (pre.foldl Event.media none) s.size _ hshows _ ?_)
  rw [hruled]
  exact List.mem_singleton_self _

/-- The rule that is appended would not be found again: there is an `@media` rule in the first one with
these parameters, in which it goes. -/
def BuriesRule (s : Sheet) (selector params : String) : Prop :=
  s.findRule? selector (some params) = .ok none ∧ ∃ m, s.topMedia? params = some m ∧ s.MediaBelow m

theorem replace?_extend {l l' : List Slot} {hfit : FitFrom s.size l} (hfit' : FitFrom s.size l')
    {i : Nat} {node : Node} (place : Place) (hl : l[i]?.map (·.place) = some place)
    (hl' : l' = l.set i ⟨node, place⟩) :
    (s.extend l hfit).replace? (s.size + i) node = some (s.extend l' hfit') := by
  obtain ⟨slot, hslot, rfl⟩ := Option.map_eq_some_iff.1 hl
  obtain ⟨hi, rfl⟩ := List.getElem?_eq_some_iff.1 hslot
  have hlt : s.size + i < (s.extend l hfit).slots.size :=
    Nat.lt_of_lt_of_eq (Nat.add_lt_add_left hi _) (size_extend hfit).symm
  rw [replace?, dif_pos hlt]
  refine congrArg some (slots_ext (Array.ext' ?_))
  simp [extend, size, hl']

/-- What has been set is there, unless its rule was buried, and another declaration of its property in its
place is what would have been set with that one at once. -/
theorem Coherent.bears_put (hs : s.Coherent) (hb : ∀ params ∈ media, ¬ s.BuriesRule selector params)
    (h : s.put selector media d₁ = .ok s₁) : ∃ c, s₁.Bears selector media d₁ c ∧
      ∀ d₂ s₂, d₁.property = d₂.property → s₁.replace? c (.declaration d₂) = some s₂ →
        s.put selector media d₂ = .ok s₂ := by
  cases puts_of_put h with
  | replaced hfound hblock hfind hold hs' =>
      refine ⟨_, hs.bears_replace hfound hblock hfind hold hs', fun d₂ s₂ hp h₂ => ?_⟩
      obtain ⟨_, s₂', _, hs₂', hdeclare⟩ := declareIn_replace (hp ▸ hfind)
      rw [replace?_replace? hs', hs₂'] at h₂
      cases h₂
      exact (put_of_found hfound hblock d₂).trans hdeclare
  | declared hlt hfound hblock hfind =>
      refine ⟨_, hs.bears_push hfound hblock hfind hlt, fun d₂ s₂ hp h₂ => ?_⟩
      obtain ⟨_, hdeclare⟩ := declareIn_push (node?_of_blockOf hblock).2 (hp ▸ hfind)
      rw [replace?_push] at h₂
      cases h₂
      exact (put_of_found hfound hblock d₂).trans hdeclare
  | @ruled c x hfit hnone htakes hx hc =>
      have hbears : (s.extend ((Item.rule selector [d₁]).slots c s.size) hfit).Bears selector media d₁
          (s.size + 2) := by
        cases htakes with
        | root =>
            obtain ⟨pre, post, hadopts⟩ := hs.adopts_root
            exact hs.bears_rule hfit hx hc hnone hadopts fun params hp => by cases hp
        | @media params m _ htop hblock =>
            obtain ⟨hmem, node, hn, hparams⟩ := of_topMedia? htop
            have hclaim := (node?_of_blockOf hblock).1
            rw [claim?, hn] at hclaim
            obtain ⟨pre, post, hadopts, _, hforce⟩ := hs.adopts_media hmem hn hclaim hparams
            have hno : ¬ s.MediaBelow m := fun hbelow => hb params rfl ⟨hnone, m, htop, hbelow⟩
            refine hs.bears_rule hfit hx hc hnone hadopts fun q hq => ?_
            cases hq
            exact hforce hno
      refine ⟨_, hbears, fun d₂ s₂ _ h₂ => ?_⟩
      obtain ⟨hfit', hput⟩ := put_of_container htakes.mediaContainer hx hc hnone d₂
      rw [replace?_extend hfit' (.child (s.size + 1)) (by simp [slots_rule]) (by simp [slots_rule])] at h₂
      cases h₂
      exact hput
  | grouped hfit hnone hmedia htop hx hc =>
      subst hmedia
      refine ⟨_, hs.bears_group hfit hx hc hnone, fun d₂ s₂ _ h₂ => ?_⟩
      obtain ⟨hfit', hdeclare⟩ := declareRule_of_media htop hx hc selector d₂
      rw [replace?_extend hfit' (.child (s.size + 3)) (by simp [slots_media]) (by simp [slots_media])] at h₂
      cases h₂
      exact (put_of_none hnone d₂).trans hdeclare

/-! ## Updates -/

theorem reading_eq_ok {α : Type} {x : Except ParseError α} {a : α} : reading x = .ok a ↔ x = .ok a := by
  cases x <;> simp [reading, Except.mapError]

end Sheet

/-- The selector and the media that a target means. -/
def Target.read (t : Target) : Except ParseError (String × Option String) := do
  return (← readSelector (PseudoState.select t.selector t.state), ← t.media.mapM readParams)

/-- The declaration as an update sets it. -/
def Declaration.marked (d : Declaration) (important : Bool) : Declaration :=
  { d with value.important := d.value.important || important }

theorem Target.read_eq_ok {t : Target} {selector : String} {media : Option String} :
    t.read = .ok (selector, media) ↔
      readSelector (PseudoState.select t.selector t.state) = .ok selector ∧
        t.media.mapM readParams = .ok media := by
  simp only [Target.read, bind_eq_ok]
  constructor
  · rintro ⟨_, hselector, _, hmedia, h⟩
    cases h
    exact ⟨hselector, hmedia⟩
  · rintro ⟨hselector, hmedia⟩
    exact ⟨_, hselector, _, hmedia, rfl⟩

namespace Sheet

variable {s s₁ s' : Sheet} {property value : String} {t : Target}

theorem mapM_reading_eq_ok {params? media : Option String} :
    (params?.mapM fun params => reading (readParams params)) = .ok media ↔
      params?.mapM readParams = .ok media := by
  cases params? with
  | none => constructor <;> (intro h; cases h; rfl)
  | some params =>
      simp only [Option.mapM_some, map_eq_pure_bind, bind_eq_ok, reading_eq_ok]
      constructor <;> (rintro ⟨params, hparams, h⟩; cases h; exact ⟨params, hparams, rfl⟩)

/-- An update reads its texts and then sets a declaration. -/
theorem update_eq (s : Sheet) (property value : String) (t : Target) : s.update property value t = (do
    let d ← reading (Declaration.read property value)
    let r ← reading t.read
    shaping (s.put r.1 r.2 (d.marked t.important))) := by
  have hput : ∀ selector media d, (do
      match ← shaping (s.findRule? selector media) with
      | some rule => shaping do s.declareIn (← s.blockOf rule) d
      | none => shaping (s.declareRule selector media d)) = shaping (s.put selector media d) := by
    intro selector media d
    rw [put]
    cases s.findRule? selector media with
    | error e => rfl
    | ok found => cases found <;> rfl
  have hread : reading t.read = (do
      let selector ← reading (readSelector (PseudoState.select t.selector t.state))
      return (selector, ← t.media.mapM fun params => reading (readParams params))) := by
    rw [Target.read]
    cases readSelector (PseudoState.select t.selector t.state) with
    | error e => rfl
    | ok selector =>
        cases t.media with
        | none => rfl
        | some params =>
            rw [Option.mapM_some, Option.mapM_some]
            cases readParams params <;> rfl
  rw [hread, update]
  simp only [← hput, bind_assoc, pure_bind]
  rfl

theorem update_eq_ok : s.update property value t = .ok s' ↔ ∃ d selector media,
    Declaration.read property value = .ok d ∧ t.read = .ok (selector, media) ∧
      s.put selector media (d.marked t.important) = .ok s' := by
  simp only [update_eq, bind_eq_ok, reading_eq_ok, shaping_eq_ok, Prod.exists]
  constructor
  · rintro ⟨d, hd, selector, media, ht, h⟩
    exact ⟨d, selector, media, hd, ht, h⟩
  · rintro ⟨d, selector, media, hd, ht, h⟩
    exact ⟨d, hd, selector, media, ht, h⟩

end Sheet
end TieredStyle.Css
