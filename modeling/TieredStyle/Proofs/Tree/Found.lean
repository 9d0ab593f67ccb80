import TieredStyle.Css.Update
import TieredStyle.Proofs.Tree.Grown
import TieredStyle.Proofs.Tree.Visits

/-!
# The rule that an update means

An update means the first rule that a fold under media sees with its selector, under its media if it has
any. Only rules and `@media` rules count for that, and after an `@media` rule no media are in force.
-/
namespace TieredStyle.Css

/-! ## Media after a tree -/

namespace Tree

/-- Whether there is an `@media` rule in the tree. -/
def hasMedia (t : Tree) : Bool := t.preorder.any fun p => p.2.media?.isSome

theorem hasMedia_mk (id : Nat) (node : Node) (block : Option Tree) (children : List Tree) :
    (mk id node block children).hasMedia =
      (node.media?.isSome || (block.toList ++ children).any hasMedia) := by
  rw [hasMedia, preorder_mk, List.any_cons, List.any_flatMap]
  rfl

end Tree

mutual
/-- Leaving an `@media` rule puts no media in force, whatever was before. -/
theorem Tree.foldl_media (m : Option String) (t : Tree) :
    t.events.foldl Event.media m = if t.hasMedia then none else m := by
  match t with
  | .mk id node block children =>
      rw [Tree.events, List.foldl_cons, List.foldl_append, List.foldl_append,
        foldl_media_block, foldl_media_all, Tree.hasMedia_mk, List.any_append]
      cases hm : node.media? <;> cases hb : block.toList.any Tree.hasMedia <;>
        cases hc : children.any Tree.hasMedia <;> simp [Event.media, hm]

theorem foldl_media_block (m : Option String) (block : Option Tree) :
    (blockEvents block).foldl Event.media m = if block.toList.any Tree.hasMedia then none else m := by
  match block with
  | none => rfl
  | some t =>
      rw [blockEvents, Tree.foldl_media]
      simp

theorem foldl_media_all (m : Option String) (ts : List Tree) :
    (allEvents ts).foldl Event.media m = if ts.any Tree.hasMedia then none else m := by
  match ts with
  | [] => rfl
  | t :: ts =>
      rw [allEvents, List.foldl_append, Tree.foldl_media, foldl_media_all, List.any_cons]
      cases t.hasMedia <;> simp
end

/-! ## The first rule that is meant -/

/-- Whether an update with this selector, under this media if any, means what is visited. -/
def Visit.meant (selector : String) (media : Option String) (v : Visit) : Bool :=
  match v.node with
  | .rule selector' _ => selector' = selector && media.all fun params => v.media = some params
  | _ => false

/-- What an update means among some events, from the media in force on. -/
def meantIn (selector : String) (media : Option String) (m : Option String) (es : List Event) :
    Option Nat :=
  ((visits m es).find? (Visit.meant selector media)).map Visit.id

variable {selector : String} {media : Option String}

theorem Sheet.findRule?_eq {s : Sheet} (h : s.tree.Whole) (selector : String) (media : Option String) :
    s.findRule? selector media = .ok (meantIn selector media none s.tree.events) := by
  rw [findRule?, foldUnderMedia_eq h]
  refine Eq.trans ?_ (foldlM_first (Visit.meant selector media) Visit.id none)
  congr 1
  funext found v
  cases hv : v.node <;> simp [Visit.meant, hv]

theorem meantIn_append (m : Option String) (es es' : List Event) :
    meantIn selector media m (es ++ es') =
      (meantIn selector media m es).or (meantIn selector media (es.foldl Event.media m) es') := by
  simp only [meantIn, visits_append, List.find?_append]
  cases (visits m es).find? (Visit.meant selector media) <;> rfl

/-! ## Edits that no update sees -/

/-- Rules are meant, and `@media` rules put media in force and out of it. -/
def Event.matters : Event → Bool
  | .enter _ node => node.kind = .rule || node.media?.isSome
  | .leave _ node => node.media?.isSome

theorem meantIn_filter (m : Option String) (es : List Event) :
    meantIn selector media m (es.filter Event.matters) = meantIn selector media m es := by
  induction es generalizing m with
  | nil => rfl
  | cons e es ih =>
      have hcons : ∀ es', meantIn selector media m (e :: es') =
          (meantIn selector media m [e]).or (meantIn selector media (Event.media m e) es') :=
        fun es' => meantIn_append m [e] es'
      cases hm : e.matters with
      | true => rw [List.filter_cons_of_pos hm, hcons es, hcons (es.filter Event.matters), ih]
      | false =>
          have hskip : meantIn selector media m [e] = none ∧ Event.media m e = m := by
            cases e with
            | enter id node =>
                simp only [Event.matters, Bool.or_eq_false_iff, Option.isSome_eq_false_iff,
                  Option.isNone_iff_eq_none] at hm
                refine ⟨?_, by rw [Event.media, hm.2]; rfl⟩
                cases node <;> simp [meantIn, visits, Visit.meant, Node.kind] at hm ⊢
            | leave id node =>
                simp only [Event.matters] at hm
                exact ⟨rfl, by simp [Event.media, hm]⟩
          rw [List.filter_cons_of_neg (by rw [hm]; exact Bool.false_ne_true), hcons es, hskip.1,
            hskip.2, Option.none_or, ih]

theorem filter_matters_modifyAll {target : Nat} {f : Tree → Tree} {ts : List Tree}
    (h : ∀ t ∈ ts, (t.modify target f).events.filter Event.matters = t.events.filter Event.matters) :
    (allEvents (modifyAll target f ts)).filter Event.matters =
      (allEvents ts).filter Event.matters := by
  induction ts with
  | nil => rfl
  | cons t ts ih =>
      have htail := ih fun u hu => h u (List.mem_cons_of_mem _ hu)
      rw [modifyAll, allEvents, allEvents, List.filter_append, List.filter_append, htail,
        h t List.mem_cons_self]

namespace Sheet

variable {s s' : Sheet} {target : Nat} {f : Tree → Tree}

/-- An edit that leaves what matters at its target leaves it in the whole tree. -/
theorem Shows.filter_matters_modify {t : Tree} (hid : ∀ t, (f t).id = t.id)
    (hf : ∀ node block children, s.node? target = some node → s.block? target = block.map Tree.id →
      (f (.mk target node block children)).events.filter Event.matters =
        (Tree.mk target node block children).events.filter Event.matters)
    (ht : s.Shows t) :
    (t.modify target f).events.filter Event.matters = t.events.filter Event.matters := by
  induction ht with
  | @mk id node block children hn hb hc _ _ ihb ihc =>
      have hblock : (blockEvents (modifyBlock target f block)).filter Event.matters =
          (blockEvents block).filter Event.matters := by
        cases block with
        | none => rfl
        | some b => exact ihb b rfl
      have hchildren : (allEvents (modifyAll target f children)).filter Event.matters =
          (allEvents children).filter Event.matters := filter_matters_modifyAll ihc
      have hmk : (Tree.mk id node (modifyBlock target f block)
          (modifyAll target f children)).events.filter Event.matters =
            (Tree.mk id node block children).events.filter Event.matters := by
        rw [Tree.events, Tree.events]
        simp only [List.filter_cons, List.filter_append, hblock, hchildren]
      rw [Tree.modify]
      split
      next he =>
        subst he
        rw [hf node _ _ hn (by rw [ids_modifyBlock hid, hb]), hmk]
      next => exact hmk

theorem Edits.findRule?_eq (h : s.Edits s' target f) (hs : s.tree.Whole)
    (hf : ∀ node block children, s.node? target = some node → s.block? target = block.map Tree.id →
      (f (.mk target node block children)).events.filter Event.matters =
        (Tree.mk target node block children).events.filter Event.matters) :
    s'.findRule? selector media = s.findRule? selector media := by
  have hs' : s'.tree.Whole := by
    rw [h.tree_eq]
    exact hs.modify h.whole
  rw [Sheet.findRule?_eq hs, Sheet.findRule?_eq hs', ← meantIn_filter, h.tree_eq,
    shows_tree.filter_matters_modify h.id hf, meantIn_filter]

theorem findRule?_replace {c : Nat} {d e : Declaration} (hs : s.tree.Whole)
    (hold : s.node? c = some (.declaration e)) (h : s.replace? c (.declaration d) = some s') :
    s'.findRule? selector media = s.findRule? selector media := by
  have hne : Node.declaration e ≠ .block := by simp
  refine (edits_replace hold hne h).findRule?_eq hs fun node block children hn hb => ?_
  cases hold.symm.trans hn
  have hnone : s.block? c = none := by simp [block?, hold, Node.block?]
  cases Option.map_eq_none_iff.1 (hb.symm.trans hnone)
  simp [Tree.declare, Tree.events, Event.matters, Node.kind, Node.media?]

theorem findRule?_push {c : Nat} {d : Declaration} (hs : s.tree.Whole)
    (hc : (Place.child c).Fits s.size) :
    (s.push (.declaration d) (.child c) hc).findRule? selector media = s.findRule? selector media := by
  refine (edits_push hc).findRule?_eq hs fun node block children _ _ => ?_
  simp [Tree.adopt, Tree.events, blockEvents, allEvents, allEvents_append, Event.matters, Node.kind,
    Node.media?, List.filter_cons]

/-! ## Media in force at the end of an `@media` rule -/

/-- Only containers have children. -/
theorem Coherent.children_eq_nil (h : s.Coherent) {id : Nat} {node : Node} (hn : s.node? id = some node)
    (hc : node.isContainer = false) : s.children id = [] := by
  refine List.eq_nil_iff_forall_not_mem.2 fun c hmem => ?_
  obtain ⟨x, hx, hcontainer⟩ := h.container _ _ (mem_children.1 hmem)
  cases hn.symm.trans hx
  rw [hc] at hcontainer
  cases hcontainer

/-- A node with a block has nothing else below it. -/
theorem Coherent.eq_owning (h : s.Coherent) {u : Tree} (hu : s.Shows u) {b : Nat}
    (hb : u.node.block? = some b) : ∃ inner, u = .mk u.id u.node (some (.mk b .block none inner)) [] := by
  have hclaim : s.claim? u.id = some b := by
    rw [claim?, hu.node?_eq]
    exact hb
  have hblock := h.block _ _ ((h.claim_iff _ _).1 hclaim)
  have hnone : s.block? b = none := by simp [block?, hblock, Node.block?]
  have hchildren : s.children u.id = [] := by
    refine h.children_eq_nil hu.node?_eq ?_
    cases hnode : u.node <;> simp [hnode, Node.block?, Node.isContainer] at hb ⊢
  rw [← h.block?_eq] at hclaim
  cases hu with
  | @mk id node block children _ hb' hc' hbs _ =>
      change s.block? id = some b at hclaim
      change s.children id = [] at hchildren
      rw [hclaim] at hb'
      rw [hchildren] at hc'
      cases List.map_eq_nil_iff.1 hc'.symm
      obtain ⟨v, hv, rfl⟩ := Option.map_eq_some_iff.1 hb'.symm
      subst hv
      cases hbs v rfl with
      | @mk id' _ _ inner hn hb'' =>
          cases hblock.symm.trans hn
          change s.block? id' = none at hnone
          rw [hnone] at hb''
          cases Option.map_eq_none_iff.1 hb''.symm
          exact ⟨inner, rfl⟩

theorem Shows.node?_of_mem_preorder {t : Tree} (ht : s.Shows t) :
    ∀ p ∈ t.preorder, s.node? p.1 = some p.2 := by
  induction ht with
  | @mk id node block children hn _ _ _ _ ihb ihc =>
      intro p hp
      rw [Tree.preorder_mk] at hp
      rcases List.mem_cons.1 hp with rfl | hp
      · exact hn
      · obtain ⟨u, hu, hp⟩ := List.mem_flatMap.1 hp
        rcases List.mem_append.1 hu with hu | hu
        · exact ihb u (Option.mem_toList.1 hu) p hp
        · exact ihc u hu p hp

/-- Whether an `@media` rule stands somewhere below a node. -/
def MediaBelow (s : Sheet) (id : Nat) : Prop :=
  ∃ c, id ∈ s.ancestors c ∧ ((s.node? c).bind Node.media?).isSome = true

theorem ids_owning {u : Tree} {b : Nat} {inner : List Tree}
    (howning : u = .mk u.id u.node (some (.mk b .block none inner)) []) :
    u.ids = u.id :: b :: inner.flatMap Tree.ids := by
  conv_lhs => rw [howning]
  simp [Tree.ids_mk]

theorem Coherent.mediaBelow_iff (h : s.Coherent) {u : Tree} (hu : s.Shows u) {b : Nat}
    {inner : List Tree} (howning : u = .mk u.id u.node (some (.mk b .block none inner)) []) :
    s.MediaBelow u.id ↔ inner.any Tree.hasMedia = true := by
  have hids := ids_owning howning
  have hnodup := h.nodup_ids hu
  rw [hids, List.nodup_cons] at hnodup
  have hblock : s.Shows (.mk b .block none inner) := by
    refine shows_hanging hu ?_
    rw [howning]
    exact List.mem_singleton_self _
  simp only [List.any_eq_true, Tree.hasMedia, MediaBelow]
  constructor
  · rintro ⟨c, hc, hmedia⟩
    have hmem := (h.mem_ids_iff hu c).2 (List.mem_cons_of_mem _ hc)
    rw [hids, List.mem_cons, List.mem_cons] at hmem
    rcases hmem with rfl | rfl | hmem
    · exact absurd (lt_of_mem_ancestors hc) (Nat.lt_irrefl _)
    · have hn : s.node? c = some .block := hblock.node?_eq
      rw [hn] at hmedia
      cases hmedia
    · obtain ⟨v, hv, hc⟩ := List.mem_flatMap.1 hmem
      obtain ⟨p, hp, rfl⟩ := List.mem_map.1 hc
      rw [(shows_hanging hblock hv).node?_of_mem_preorder p hp] at hmedia
      exact ⟨v, hv, p, hp, hmedia⟩
  · rintro ⟨v, hv, p, hp, hmedia⟩
    have hbelow : p.1 ∈ b :: inner.flatMap Tree.ids :=
      List.mem_cons_of_mem _ (List.mem_flatMap.2 ⟨v, hv, List.mem_map_of_mem hp⟩)
    have hup := (h.mem_ids_iff hu p.1).1 (hids ▸ List.mem_cons_of_mem _ hbelow)
    refine ⟨p.1, ?_, ?_⟩
    · rcases List.mem_cons.1 hup with he | hup
      · rw [← he] at hbelow
        exact absurd hbelow hnodup.1
      · exact hup
    · rw [(shows_hanging hblock hv).node?_of_mem_preorder p hp]
      exact hmedia

/-- The end of the block of one of the children of a node. -/
theorem adopts_owning {id b : Nat} {node : Node} {block : Option Tree} {l r inner : List Tree} {u : Tree}
    (howning : u = .mk u.id u.node (some (.mk b .block none inner)) []) (hid : id ≠ b) (hne : u.id ≠ b)
    (hbeside : ∀ v ∈ block.toList ++ (l ++ r), b ∉ v.ids) (hinner : ∀ v ∈ inner, b ∉ v.ids) :
    Adopts (.mk id node block (l ++ u :: r)) b
      (.enter id node :: (blockEvents block ++ (allEvents l ++
        (.enter u.id u.node :: .enter b .block :: allEvents inner))))
      (.leave b .block :: .leave u.id u.node :: (allEvents r ++ [.leave id node])) := by
  have hevents : u.events = .enter u.id u.node :: .enter b .block ::
      (allEvents inner ++ [.leave b .block, .leave u.id u.node]) := by
    conv_lhs => rw [howning]
    simp [Tree.events, blockEvents, allEvents]
  refine ⟨by simp [Tree.events, allEvents_append, allEvents, hevents], fun child => ?_⟩
  have hmodify : (u.modify b (.adopt child)).events = .enter u.id u.node :: .enter b .block ::
      (allEvents inner ++ (child.events ++ [.leave b .block, .leave u.id u.node])) := by
    conv_lhs => rw [howning]
    simp [Tree.modify, modifyBlock, modifyAll, modifyAll_of_not_mem inner hinner, hne, Tree.adopt,
      Tree.events, blockEvents, allEvents, allEvents_append]
  have hblock : modifyBlock b (.adopt child) block = block :=
    modifyBlock_of_not_mem block fun v hv => hbeside v (by simp [Option.mem_def.1 hv])
  have hl : modifyAll b (.adopt child) l = l :=
    modifyAll_of_not_mem l fun v hv => hbeside v (by simp [hv])
  have hr : modifyAll b (.adopt child) r = r :=
    modifyAll_of_not_mem r fun v hv => hbeside v (by simp [hv])
  have hall : modifyAll b (.adopt child) (l ++ u :: r) = l ++ u.modify b (.adopt child) :: r := by
    rw [modifyAll_eq] at hl hr ⊢
    rw [List.map_append, List.map_cons, hl, hr]
  rw [Tree.modify, if_neg hid, hblock, hall]
  simp [Tree.events, allEvents_append, allEvents, hmodify]

/-- What is in one of several trees is in none beside it, if no number comes twice. -/
theorem not_mem_beside {l r : List Tree} {u : Tree} {b : Nat}
    (hnodup : ((l ++ u :: r).flatMap Tree.ids).Nodup) (hb : b ∈ u.ids) : ∀ v ∈ l ++ r, b ∉ v.ids := by
  rw [List.flatMap_append, List.flatMap_cons] at hnodup
  obtain ⟨_, hright, hleft⟩ := List.nodup_append.1 hnodup
  obtain ⟨_, _, hright⟩ := List.nodup_append.1 hright
  intro v hv hmem
  rcases List.mem_append.1 hv with hv | hv
  · exact hleft b (List.mem_flatMap.2 ⟨v, hv, hmem⟩) b (List.mem_append_left _ hb) rfl
  · exact hright b hb b (List.mem_flatMap.2 ⟨v, hv, hmem⟩) rfl

/-- What stands at the end of an `@media` rule on the root has its media in force, unless another one is in
there. -/
theorem Coherent.adopts_media (h : s.Coherent) {m b : Nat} {node : Node} {params : String}
    (hm : m ∈ s.children root) (hn : s.node? m = some node) (hb : node.block? = some b)
    (hparams : node.media? = some params) : ∃ pre post, Adopts s.tree b pre post ∧
      (s.MediaBelow m → pre.foldl Event.media none = none) ∧
      (¬ s.MediaBelow m → pre.foldl Event.media none = some params) := by
  have hshows := s.shows_tree
  have hroot : s.tree.id = root := id_treeAt root s.size_pos
  cases ht : s.tree with
  | mk id rootNode block children =>
      rw [ht] at hroot hshows
      cases (show id = root from hroot)
      obtain ⟨u, hu, rfl⟩ : ∃ u ∈ children, u.id = m := by
        cases hshows with
        | mk _ _ hrc =>
            rw [hrc] at hm
            exact List.mem_map.1 hm
      have hus : s.Shows u := shows_hanging hshows (List.mem_append_right _ hu)
      cases Option.some.inj (hn.symm.trans hus.node?_eq)
      obtain ⟨inner, howning⟩ := h.eq_owning hus hb
      have hids := ids_owning howning
      have hself := h.nodup_ids hus
      rw [hids, List.nodup_cons, List.nodup_cons] at hself
      obtain ⟨hne, hinner, _⟩ := hself
      have hbu : b ∈ u.ids := by
        rw [hids]
        exact List.mem_cons_of_mem _ List.mem_cons_self
      obtain ⟨l, r, rfl⟩ := List.append_of_mem hu
      have hall := h.nodup_ids hshows
      rw [Tree.ids_mk, ← List.append_assoc, List.nodup_cons] at hall
      have hbeside := not_mem_beside hall.2 hbu
      rw [List.append_assoc] at hbeside
      have hrb : root ≠ b := by
        rintro rfl
        exact hall.1 (List.mem_flatMap.2 ⟨u, List.mem_append_right _ List.mem_cons_self, hbu⟩)
      refine ⟨_, _, adopts_owning howning hrb (List.ne_of_not_mem_cons hne) hbeside
        (fun v hv hmem => hinner (List.mem_flatMap.2 ⟨v, hv, hmem⟩)), ?_⟩
      rw [h.mediaBelow_iff hus howning]
      simp only [List.foldl_cons, List.foldl_append, foldl_media_all, Event.media, hparams]
      constructor
      · intro hany
        rw [if_pos hany]
      · intro hany
        rw [if_neg hany]
        rfl

end Sheet
end TieredStyle.Css
