import TieredStyle.Proofs.Tree.Enclosed
import TieredStyle.Proofs.Tree.Ordered
import TieredStyle.Proofs.Tree.Put

/-!
# Media that lapse

Only one media query is kept in force along a walk. Behind an `@media` rule that stands in another one, none is
in force any more, although the outer one goes on: its media have lapsed there.
-/
namespace TieredStyle.Css

namespace Sheet

variable {s : Sheet}

/-! ## The media in force at a node -/

def isMediaRule (s : Sheet) (id : Nat) : Bool := ((s.node? id).bind Node.media?).isSome

/-- Between a node and the beginning of the nearest `@media` rule around it another one has come to its end. -/
def Lapsed (s : Sheet) (id : Nat) : Prop :=
  (s.enclosingMedia? id).isSome = true ∧ ∃ c, c < id ∧ s.isMediaRule c = true ∧ c ∉ s.ancestors id ∧
    ∀ m ∈ s.ancestors id, s.isMediaRule m = true → m < c

instance (s : Sheet) (id : Nat) : Decidable (s.Lapsed id) :=
  inferInstanceAs (Decidable (_ ∧ ∃ c, c < id ∧ _))

/-- The media in force where a walk comes to a node. -/
def inForce? (s : Sheet) (id : Nat) : Option String :=
  if s.Lapsed id then none else s.enclosingMedia? id

theorem inForce?_root : s.inForce? root = none := by
  have hnone : s.enclosingMedia? root = none := by
    rw [enclosingMedia?, nodesAbove, ancestors_root (parent?_root s)]
    rfl
  simp [inForce?, hnone]

theorem enclosingMedia?_of_parent? {id p : Nat} {node : Node} (hp : s.parent? id = some p)
    (hn : s.node? p = some node) :
    s.enclosingMedia? id = node.media?.or (s.enclosingMedia? p) := by
  rw [enclosingMedia?, enclosingMedia?, nodesAbove_of_parent? hp hn, List.findSome?_cons]
  cases node.media? <;> rfl

/-- With no `@media` rule since its parent, a node is under the media of the parent. -/
theorem inForce?_of_parent? {id p : Nat} {node : Node} (hp : s.parent? id = some p)
    (hn : s.node? p = some node) (hnone : ∀ c, p < c → c < id → s.isMediaRule c = false) :
    s.inForce? id = node.media?.or (s.inForce? p) := by
  have hlt := (parent_lt hp).1
  have hself : s.isMediaRule p = node.media?.isSome := by
    rw [isMediaRule, hn]
    rfl
  rw [inForce?, inForce?, enclosingMedia?_of_parent? hp hn]
  cases hmedia : node.media? with
  | some params =>
      rw [if_neg]
      · rfl
      · rintro ⟨_, c, hc, hcmedia, _, hall⟩
        have hpc : p < c := hall p (by simp [ancestors_of_parent? hp]) (by simp [hself, hmedia])
        rw [hnone c hpc hc] at hcmedia
        cases hcmedia
  | none =>
      rw [hmedia] at hself
      have hiff : s.Lapsed id ↔ s.Lapsed p := by
        rw [Lapsed, Lapsed, enclosingMedia?_of_parent? hp hn, hmedia, ancestors_of_parent? hp]
        refine and_congr Iff.rfl (exists_congr fun c => ?_)
        constructor
        · rintro ⟨hc, hcmedia, hnot, hall⟩
          rw [List.mem_cons, not_or] at hnot
          have hle : c ≤ p := Nat.le_of_not_lt fun hpc => by
            rw [hnone c hpc hc] at hcmedia
            cases hcmedia
          exact ⟨Nat.lt_of_le_of_ne hle hnot.1, hcmedia, hnot.2,
            fun m hm => hall m (List.mem_cons_of_mem _ hm)⟩
        · rintro ⟨hc, hcmedia, hnot, hall⟩
          refine ⟨Nat.lt_trans hc hlt, hcmedia, ?_, fun m hm hmmedia => ?_⟩
          · exact fun hm => (List.mem_cons.1 hm).elim (Nat.ne_of_lt hc) hnot
          · rcases List.mem_cons.1 hm with rfl | hm
            · rw [hself] at hmmedia
              cases hmmedia
            · exact hall m hm hmmedia
      simp only [hiff, Option.none_or]

/-- After an `@media` rule beside it a node is under no media. -/
theorem inForce?_of_beside {id p c : Nat} (hp : s.parent? id = some p) (hpc : p < c) (hc : c < id)
    (hmedia : s.isMediaRule c = true) : s.inForce? id = none := by
  have hle : ∀ m ∈ s.ancestors id, m ≤ p := by
    intro m hm
    rw [ancestors_of_parent? hp] at hm
    exact le_of_mem_upward hm
  rw [inForce?]
  split
  next => rfl
  next hlapsed =>
    refine Option.not_isSome_iff_eq_none.1 fun hsome => hlapsed ⟨hsome, c, hc, hmedia, ?_, ?_⟩
    · exact fun hm => Nat.not_le_of_lt hpc (hle c hm)
    · exact fun m hm _ => Nat.lt_of_le_of_lt (hle m hm) hpc

end Sheet

/-! ## The visits of a walk -/

/-- Trees one after the other, each from the media on that those before it leave in force. -/
theorem visits_allEvents_of_split {m : Option String} {ts : List Tree} {f : Tree → List Visit}
    (h : ∀ l u r, ts = l ++ u :: r → visits (if l.any Tree.hasMedia then none else m) u.events = f u) :
    visits m (allEvents ts) = ts.flatMap f := by
  induction ts generalizing m with
  | nil => rfl
  | cons t ts ih =>
      have hhead : visits m t.events = f t := h [] t ts rfl
      rw [allEvents, visits_append, Tree.foldl_media, hhead, ih, List.flatMap_cons]
      rintro l u r rfl
      rw [← h (t :: l) u r rfl, List.any_cons]
      cases t.hasMedia <;> simp

namespace Sheet

variable {s : Sheet}

/-- A node as a walk visits it. -/
def passed (s : Sheet) (p : Nat × Node) : Visit := ⟨p.2.media?.or (s.inForce? p.1), p.1, p.2⟩

theorem hasMedia_iff {t : Tree} (ht : s.Shows t) :
    t.hasMedia = true ↔ ∃ c ∈ t.ids, s.isMediaRule c = true := by
  have hnode := ht.node?_of_mem_preorder
  rw [Tree.hasMedia, List.any_eq_true, Tree.ids]
  constructor
  · rintro ⟨p, hp, hmedia⟩
    exact ⟨p.1, List.mem_map_of_mem hp, by simpa [isMediaRule, hnode p hp] using hmedia⟩
  · rintro ⟨c, hc, hmedia⟩
    obtain ⟨p, hp, rfl⟩ := List.mem_map.1 hc
    exact ⟨p, hp, by simpa [isMediaRule, hnode p hp] using hmedia⟩

theorem any_hasMedia_iff {ts : List Tree} (h : ∀ t ∈ ts, s.Shows t) :
    ts.any Tree.hasMedia = true ↔ ∃ c ∈ ts.flatMap Tree.ids, s.isMediaRule c = true := by
  simp only [List.any_eq_true, List.mem_flatMap]
  constructor
  · rintro ⟨t, ht, hmedia⟩
    obtain ⟨c, hc, hmedia⟩ := (hasMedia_iff (h t ht)).1 hmedia
    exact ⟨c, ⟨t, ht, hc⟩, hmedia⟩
  · rintro ⟨c, ⟨t, ht, hc⟩, hmedia⟩
    exact ⟨t, ht, (hasMedia_iff (h t ht)).2 ⟨c, hc, hmedia⟩⟩

/-- What a node puts in force holds in the trees on it up to the first `@media` rule among them. -/
theorem Coherent.inForce?_hanging (hs : s.Coherent) {id : Nat} {node : Node} {block : Option Tree}
    {children l r : List Tree} {u : Tree} (ht : s.Shows (.mk id node block children))
    (hordered : (Tree.mk id node block children).Ordered) (hsplit : block.toList ++ children = l ++ u :: r) :
    s.inForce? u.id = if l.any Tree.hasMedia then none else node.media?.or (s.inForce? id) := by
  have hmem : ∀ v ∈ l ++ u :: r, v ∈ block.toList ++ children := fun v hv => hsplit ▸ hv
  have hparent : s.parent? u.id = some id :=
    (hs.parent?_eq_some_iff ht u.id).2 ⟨u, hmem u (by simp), rfl⟩
  have hany := any_hasMedia_iff fun v hv => shows_hanging ht (hmem v (List.mem_append_left _ hv))
  simp only [(hordered.of_hanging hsplit).2] at hany
  split
  next h =>
    obtain ⟨c, ⟨hpc, hc⟩, hmedia⟩ := hany.1 h
    exact inForce?_of_beside hparent hpc hc hmedia
  next h =>
    refine inForce?_of_parent? hparent ht.node?_eq fun c hpc hc => ?_
    exact Bool.eq_false_iff.2 fun hmedia => h (hany.2 ⟨c, ⟨hpc, hc⟩, hmedia⟩)

theorem Coherent.visits_passed (hs : s.Coherent) {t : Tree} (ht : s.Shows t) (hordered : t.Ordered) :
    visits (s.inForce? t.id) t.events = t.preorder.map s.passed := by
  induction ht with
  | @mk id node block children hn hb hc hbs hcs ihb ihc =>
      have ht : s.Shows (.mk id node block children) := .mk hn hb hc hbs hcs
      have hvisits : visits (node.media?.or (s.inForce? id)) (allEvents (block.toList ++ children)) =
          (block.toList ++ children).flatMap fun u => u.preorder.map s.passed := by
        refine visits_allEvents_of_split fun l u r hsplit => ?_
        have hu : u ∈ block.toList ++ children := hsplit ▸ List.mem_append_right _ List.mem_cons_self
        rw [← hs.inForce?_hanging ht hordered hsplit]
        rcases List.mem_append.1 hu with hu | hu
        · exact ihb u (Option.mem_toList.1 hu) (hordered.of_hanging hsplit).1
        · exact ihc u hu (hordered.of_hanging hsplit).1
      simp only [Tree.events_mk, Tree.preorder_mk, visits, visits_append, Tree.id, hvisits, List.map_cons,
        List.map_flatMap, List.append_nil]
      rfl

/-! ## What is located -/

/-- The declaration at a node, if it lies in a rule, as a walk comes across it. -/
def seen? (s : Sheet) (id : Nat) : Option Located :=
  (s.enclosed? id).map fun l => { l with media := s.inForce? id }

theorem locatedAt?_passed {p : Nat × Node} (hn : s.node? p.1 = some p.2) :
    s.locatedAt? (s.passed p) = s.seen? p.1 := by
  obtain ⟨id, node⟩ := p
  rw [seen?, enclosed?, hn]
  cases node <;> cases hselector : s.enclosingSelector? id <;>
    simp [locatedAt?, passed, hselector, Node.media?]

/-- What a walk locates in a stylesheet whose nodes are numbered in document order. -/
theorem Coherent.locate_seen (hs : s.Coherent) (hordered : s.tree.Ordered) {f : Filter}
    {media : Option String} (hmedia : f.media.mapM readParams = .ok media) :
    s.locate f = .ok ((s.tree.ids.filterMap s.seen?).filter { f with media }.admits) := by
  have hroot : s.tree.id = root := id_treeAt root s.size_pos
  have hvisits := hs.visits_passed s.shows_tree hordered
  rw [hroot, inForce?_root] at hvisits
  rw [locate_eq (hs.whole shows_tree) (mapM_reading_eq_ok.2 hmedia), hvisits, Tree.ids,
    List.filterMap_map, List.filterMap_map]
  refine congrArg (fun found => Except.ok (List.filter _ found)) (List.filterMap_congr fun p hp => ?_)
  exact locatedAt?_passed (s.shows_tree.node?_of_mem_preorder p hp)

theorem admits_of_admits_none {f : Filter} {l : Located}
    (h : f.admits { l with media := none } = true) : f.admits l = true := by
  simp only [Filter.admits, Bool.and_eq_true] at h ⊢
  refine ⟨⟨h.1.1, ?_⟩, h.2⟩
  cases hmedia : f.media with
  | none => rfl
  | some params => simp [hmedia] at h

theorem enclosed?_media {id : Nat} {l : Located} (h : s.enclosed? id = some l) :
    l.media = s.enclosingMedia? id := by
  unfold enclosed? at h
  split at h
  next =>
    cases h
    rfl
  next => cases h

theorem filter_seen?_eq_iff (f : Filter) (id : Nat) :
    (s.seen? id).filter f.admits = (s.enclosed? id).filter f.admits ↔
      ∀ l, s.enclosed? id = some l → f.admits l = true → ¬ s.Lapsed id := by
  cases h : s.enclosed? id with
  | none => simp [seen?, h]
  | some l =>
      have hmedia := enclosed?_media h
      by_cases hlapsed : s.Lapsed id
      · have hne : { l with media := none } ≠ l := by
          intro he
          have hsome := hlapsed.1
          rw [← hmedia, ← he] at hsome
          cases hsome
        have hnone := admits_of_admits_none (f := f) (l := l)
        cases hadmits : f.admits l <;> cases hadmits' : f.admits { l with media := none } <;>
          simp_all [seen?, inForce?, Option.filter]
      · have hself : { l with media := s.enclosingMedia? id } = l := by rw [← hmedia]
        simp [seen?, h, inForce?, hlapsed, hself]

theorem isSome_filter_seen? {f : Filter} {id : Nat}
    (h : ((s.seen? id).filter f.admits).isSome = true) :
    ((s.enclosed? id).filter f.admits).isSome = true := by
  cases hl : s.enclosed? id with
  | none => simp [seen?, hl] at h
  | some l =>
      have hmedia := enclosed?_media hl
      by_cases hlapsed : s.Lapsed id
      · simp only [seen?, hl, inForce?, hlapsed, ↓reduceIte, Option.map_some, Option.isSome_filter] at h
        simpa using admits_of_admits_none h
      · have hself : { l with media := s.enclosingMedia? id } = l := by rw [← hmedia]
        simpa [seen?, hl, inForce?, hlapsed, hself] using h

end Sheet

/-- Two partial functions, the one with no more values than the other, give the same list only if they agree. -/
theorem filterMap_eq_filterMap_iff {α β : Type} {g h : α → Option β} {xs : List α}
    (hsome : ∀ x ∈ xs, (g x).isSome = true → (h x).isSome = true) :
    xs.filterMap g = xs.filterMap h ↔ ∀ x ∈ xs, g x = h x := by
  refine ⟨fun heq => ?_, List.filterMap_congr⟩
  induction xs with
  | nil =>
      intro x hx
      cases hx
  | cons x xs ih =>
      have htail : ∀ y ∈ xs, (g y).isSome = true → (h y).isSome = true :=
        fun y hy => hsome y (List.mem_cons_of_mem _ hy)
      have hle : (xs.filterMap g).length ≤ (xs.filterMap h).length := by
        rw [List.length_filterMap_eq_countP, List.length_filterMap_eq_countP]
        exact List.countP_mono_left htail
      rw [List.forall_mem_cons]
      cases hg : g x with
      | some b =>
          obtain ⟨b', hh⟩ := Option.isSome_iff_exists.1 (hsome x List.mem_cons_self (by simp [hg]))
          rw [List.filterMap_cons_some hg, List.filterMap_cons_some hh] at heq
          obtain ⟨rfl, htails⟩ := List.cons.inj heq
          exact ⟨hh.symm, ih htail htails⟩
      | none =>
          cases hh : h x with
          | none =>
              rw [List.filterMap_cons_none hg, List.filterMap_cons_none hh] at heq
              exact ⟨rfl, ih htail heq⟩
          | some b =>
              rw [List.filterMap_cons_none hg, List.filterMap_cons_some hh] at heq
              rw [heq, List.length_cons] at hle
              exact absurd hle (Nat.not_succ_le_self _)

namespace Sheet

variable {s : Sheet}

/-- A filter gives the declarations that pass it, each once, in document order and with what encloses it,
exactly if none that passes lies where the media have lapsed. -/
theorem locate_enclosed_iff {css : String} {f : Filter} {media : Option String} (hs : read css = .ok s)
    (hmedia : f.media.mapM readParams = .ok media) :
    s.entered = .ok (List.range s.size) ∧
      (s.locate f = .ok (((List.range s.size).filterMap s.enclosed?).filter { f with media }.admits) ↔
        ∀ id l, s.enclosed? id = some l → { f with media }.admits l = true → ¬ s.Lapsed id) := by
  obtain ⟨items, _, hitems⟩ := bind_eq_ok.1 hs
  cases hitems
  have hcoherent := coherent_ofItems items
  obtain ⟨hordered, hids⟩ := ordered_ofItems items
  refine ⟨hids ▸ hcoherent.entered, ?_⟩
  rw [hcoherent.locate_seen hordered hmedia, hids, Except.ok.injEq, List.filter_filterMap,
    List.filter_filterMap, filterMap_eq_filterMap_iff fun id _ => isSome_filter_seen?]
  simp only [filter_seen?_eq_iff]
  constructor
  · intro h id l hl
    refine h id ?_ l hl
    rw [List.mem_range, ← Nat.not_le, ← node?_eq_none_iff]
    intro hnone
    simp [enclosed?, hnone] at hl
  · intro h id _
    exact h id

/-- The inner `@media` rule is in force up to its end, and behind it nothing passes this filter. -/
theorem locate_enclosed_inner : ∃ s,
    read "@media a\x7b.x\x7bc:d\x7d@media b\x7b.y\x7be:f\x7d\x7d.z\x7bg:h\x7d\x7d" = .ok s ∧
      (some "b").mapM readParams = .ok (some "b") ∧ s.entered = .ok (List.range s.size) ∧
      s.locate { media := some "b" } = .ok [⟨⟨"e", ⟨"f", false⟩⟩, ".y", some "b", .base⟩] := by
  let s := ofItems [.group "media" "a" [.rule ".x" [⟨"c", ⟨"d", false⟩⟩],
    .group "media" "b" [.rule ".y" [⟨"e", ⟨"f", false⟩⟩]], .rule ".z" [⟨"g", ⟨"h", false⟩⟩]]]
  have hread : read "@media a\x7b.x\x7bc:d\x7d@media b\x7b.y\x7be:f\x7d\x7d.z\x7bg:h\x7d\x7d" = .ok s := by
    decide +kernel
  have hmedia : (some "b").mapM readParams = .ok (some "b") := by decide +kernel
  obtain ⟨hentered, hiff⟩ := locate_enclosed_iff (f := { media := some "b" }) hread hmedia
  refine ⟨s, hread, hmedia, hentered, ?_⟩
  have hnone : ∀ id < s.size, ∀ l ∈ s.enclosed? id,
      Filter.admits { media := some "b" } l = true → ¬ s.Lapsed id := by
    decide +kernel
  rw [hiff.2 fun id l hl => hnone id ?_ l hl]
  · decide +kernel
  · rw [← Nat.not_le, ← node?_eq_none_iff]
    intro hid
    simp [enclosed?, hid] at hl

/-- Behind the end of the inner `@media` rule a declaration is located under no media. -/
theorem exists_locate_ne_enclosed : ∃ s, read "@media a\x7b@media b\x7b\x7d.x\x7bc:d\x7d\x7d" = .ok s ∧
    (List.range s.size).filterMap s.enclosed? = [⟨⟨"c", ⟨"d", false⟩⟩, ".x", some "a", .base⟩] ∧
    s.locate {} = .ok [⟨⟨"c", ⟨"d", false⟩⟩, ".x", none, .base⟩] ∧
    s.locate {} ≠ .ok (((List.range s.size).filterMap s.enclosed?).filter (Filter.admits {})) := by
  let s := ofItems [.group "media" "a" [.group "media" "b" [], .rule ".x" [⟨"c", ⟨"d", false⟩⟩]]]
  exact ⟨s, by decide +kernel, by decide +kernel, by decide +kernel, by decide +kernel⟩

end Sheet
end TieredStyle.Css
