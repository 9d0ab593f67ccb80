import TieredStyle.Proofs.Tree.Lapsed

/-!
# Retrieving what has been set

As long as rules have nothing but declarations in them, locating declarations goes from rule to rule. So it comes
across a declaration that has been set before it comes across any other that the update could have meant.
-/
namespace TieredStyle.Css
namespace Sheet

variable {s s₁ : Sheet} {selector : String} {media : Option String} {d : Declaration}

/-! ## Rules with nothing but declarations -/

/-- Nothing but declarations stands in the blocks of rules. -/
def PlainRules (s : Sheet) : Prop :=
  ∀ r selector b, s.node? r = some (.rule selector b) →
    ∃ block, b = some block ∧ ∀ c ∈ s.children block, s.IsDeclaration c

theorem plainRules_read {css : String} (h : read css = .ok s) : s.PlainRules := by
  intro r selector b hn
  obtain ⟨_, block, hb, _, hchildren⟩ := (shaped_read h).rule r selector b hn
  exact ⟨block, hb, hchildren⟩

theorem PlainRules.replace (h : s.PlainRules) {c : Nat} (hs₁ : s.replace? c (.declaration d) = some s₁) :
    s₁.PlainRules := by
  intro r selector b hn
  rw [node?_replace? hs₁] at hn
  split at hn
  next => cases hn
  next =>
    obtain ⟨block, hb, hchildren⟩ := h r selector b hn
    refine ⟨block, hb, fun x hx => ?_⟩
    rw [children_replace? hs₁] at hx
    rw [IsDeclaration, node?_replace? hs₁]
    split
    · exact ⟨d, rfl⟩
    · exact hchildren x hx

/-- What is put into the block of a rule has to be a declaration. -/
theorem PlainRules.push (h : s.PlainRules) (node : Node) {place : Place} (hlt : place.Fits s.size)
    (hchild : ∀ r selector b, place = .child b → s.node? r = some (.rule selector (some b)) →
      ∃ d, node = .declaration d)
    (hrule : ∀ selector b, node = .rule selector b → b = some (s.size + 1)) :
    (s.push node place hlt).PlainRules := by
  intro r selector b hn
  rw [node?_push] at hn
  split at hn
  next =>
    -- the block of a new rule is not there yet
    refine ⟨s.size + 1, hrule selector b (Option.some.inj hn), fun c hc => ?_⟩
    rw [children_of_size_le (by rw [size_push])] at hc
    cases hc
  next =>
    obtain ⟨block, rfl, hchildren⟩ := h r selector b hn
    have hold : ∀ c ∈ s.children block, (s.push node place hlt).IsDeclaration c := by
      intro c hc
      obtain ⟨d, hd⟩ := hchildren c hc
      exact ⟨d, by simp [node?_push, Nat.ne_of_lt (lt_size_of_node? hd), hd]⟩
    refine ⟨block, rfl, fun c hc => ?_⟩
    rw [children_push] at hc
    split at hc
    next hplace =>
      rcases List.mem_append.1 hc with hc | hc
      · exact hold c hc
      · obtain ⟨d, rfl⟩ := hchild r selector block hplace hn
        cases List.mem_singleton.1 hc
        exact ⟨d, by simp [node?_push]⟩
    next => exact hold c hc

theorem PlainRules.extend_rule (h : s.PlainRules) {c : Nat}
    (hfit : FitFrom s.size ((Item.rule selector [d]).slots c s.size))
    (hc : ∀ r selector, s.node? r ≠ some (.rule selector (some c))) :
    (s.extend ((Item.rule selector [d]).slots c s.size) hfit).PlainRules := by
  simp only [slots_rule] at hfit ⊢
  rw [extend_cons, extend_cons, extend_cons, extend_nil]
  refine ((h.push _ _ ?_ ?_).push .block _ ?_ ?_).push (.declaration d) _ ?_ ?_
  · intro r selector b hplace hn
    cases hplace
    exact absurd hn (hc r selector)
  · intro _ _ hrule
    cases hrule
    rfl
  all_goals simp

theorem PlainRules.extend_group (h : s.PlainRules) (hs : s.Coherent) {params : String}
    (hfit : FitFrom s.size ((Item.group "media" params [.rule selector [d]]).slots root s.size)) :
    (s.extend ((Item.group "media" params [.rule selector [d]]).slots root s.size) hfit).PlainRules := by
  have hclaim : ∀ {r b selector}, s.node? r = some (.rule selector (some b)) → r < b ∧ b < s.size := by
    intro r b selector hn
    apply hs.claim_lt
    rw [claim?, hn]
    rfl
  simp only [slots_media] at hfit ⊢
  rw [extend_cons, extend_cons, extend_cons, extend_cons, extend_cons, extend_nil]
  refine ((((h.push (.atRule "media" params (some (s.size + 1))) _ ?_ ?_).push .block _ ?_ ?_).push
    (.rule selector (some (s.size + 3))) _ ?_ ?_).push .block _ ?_ ?_).push (.declaration d) _ ?_ ?_
  · intro r selector b hplace hn
    cases hplace
    exact absurd (hclaim hn).1 (Nat.not_lt_zero r)
  · simp
  · simp
  · simp
  · -- the block of the new `@media` rule is the block of no rule
    intro r selector b hplace hn
    cases hplace
    rw [node?_push, node?_push] at hn
    split at hn
    next => cases hn
    next =>
      split at hn
      next => cases hn
      next => exact absurd (hclaim hn).2 (Nat.not_lt_of_le (Nat.le_succ _))
  all_goals simp

/-- The blocks of rules hold nothing but declarations after an update as well. -/
theorem Puts.plainRules (h : s.Puts selector media d s₁) (hs : s.Coherent) (hplain : s.PlainRules) :
    s₁.PlainRules := by
  cases h with
  | replaced _ _ _ _ hs₁ => exact hplain.replace hs₁
  | declared hlt => exact hplain.push _ hlt (fun _ _ _ _ _ => ⟨d, rfl⟩) (fun _ _ h => by cases h)
  | @ruled c _ hfit _ htakes =>
      refine hplain.extend_rule hfit fun r selector hn => ?_
      have hclaim : s.claim? r = some c := by
        rw [claim?, hn]
        rfl
      cases htakes with
      | root => exact absurd (hs.claim_lt hclaim).1 (Nat.not_lt_zero r)
      | media htop hblock =>
          -- a block belongs to one node only, and this one to an `@media` rule
          have hplace := (hs.claim_iff _ _).1 (node?_of_blockOf hblock).1
          cases hplace.symm.trans ((hs.claim_iff _ _).1 hclaim)
          obtain ⟨_, node, hnode, hmedia⟩ := of_topMedia? htop
          cases hn.symm.trans hnode
          cases hmedia
  | grouped hfit _ hmedia => exact hplain.extend_group hs hfit

/-! ## Locating from rule to rule -/

/-- The declaration at a node. -/
def declaration? (s : Sheet) (c : Nat) : Option Declaration :=
  match s.node? c with
  | some (.declaration d) => some d
  | _ => none

/-- The declarations in the rule that is visited, located. -/
def locatedIn (s : Sheet) (v : Visit) : List Located :=
  match v.node with
  | .rule selector (some b) =>
    (s.declarations b).map fun d => ⟨d, selector, v.media, PseudoState.ofSelector selector⟩
  | _ => []

theorem Coherent.eq_leaf (hs : s.Coherent) {t : Tree} (ht : s.Shows t)
    (hd : s.node? t.id = some (.declaration d)) : t = .mk t.id (.declaration d) none [] := by
  cases ht with
  | @mk id node block children hn hb hc _ _ =>
      cases hn.symm.trans hd
      rw [hs.children_eq_nil hn rfl] at hc
      cases List.map_eq_nil_iff.1 hc.symm
      rw [hs.block?_eq, claim?, hn] at hb
      cases Option.map_eq_none_iff.1 hb.symm
      rfl

/-- The declarations in a block are located under the media in force there. -/
theorem located_declarations {m : Option String} {ts : List Tree}
    (h : ∀ t ∈ ts, ∃ d, t = .mk t.id (.declaration d) none [] ∧ s.node? t.id = some (.declaration d) ∧
      s.enclosingSelector? t.id = some selector) :
    (visits m (allEvents ts)).filterMap s.locatedAt? =
        ((ts.map Tree.id).filterMap s.declaration?).map
          (fun d => ⟨d, selector, m, PseudoState.ofSelector selector⟩) ∧
      (visits m (allEvents ts)).flatMap s.locatedIn = [] := by
  induction ts with
  | nil => exact ⟨rfl, rfl⟩
  | cons t ts ih =>
      obtain ⟨d, ht, hn, hselector⟩ := h t List.mem_cons_self
      obtain ⟨hlocated, hnone⟩ := ih fun u hu => h u (List.mem_cons_of_mem _ hu)
      have hvisits : visits m (allEvents (t :: ts)) =
          ⟨m, t.id, .declaration d⟩ :: visits m (allEvents ts) := by
        rw [allEvents]
        generalize t.id = id at ht
        subst ht
        rfl
      have hdeclaration : s.declaration? t.id = some d := by simp [declaration?, hn]
      rw [hvisits]
      exact ⟨by simp [locatedAt?, hselector, hlocated, hdeclaration], by simp [locatedIn, hnone]⟩

theorem located_allEvents {ts : List Tree}
    (h : ∀ t ∈ ts, ∀ m, (visits m t.events).filterMap s.locatedAt? = (visits m t.events).flatMap s.locatedIn)
    (m : Option String) :
    (visits m (allEvents ts)).filterMap s.locatedAt? = (visits m (allEvents ts)).flatMap s.locatedIn := by
  induction ts generalizing m with
  | nil => rfl
  | cons t ts ih =>
      rw [allEvents, visits_append, List.filterMap_append, List.flatMap_append, h t List.mem_cons_self,
        ih fun u hu => h u (List.mem_cons_of_mem _ hu)]

theorem visits_rule (m : Option String) (id b : Nat) (inner : List Tree) :
    visits m (Tree.mk id (.rule selector (some b)) (some (.mk b .block none inner)) []).events =
      ⟨m, id, .rule selector (some b)⟩ :: ⟨m, b, .block⟩ :: visits m (allEvents inner) := by
  simp [Tree.events, blockEvents, allEvents, visits, visits_append, Node.media?]

/-- A plain rule is its block with its declarations. -/
theorem Coherent.eq_rule (hs : s.Coherent) (hplain : s.PlainRules) {id : Nat} {b : Option Nat}
    {block : Option Tree} {children : List Tree}
    (ht : s.Shows (.mk id (.rule selector b) block children)) :
    ∃ next inner, Tree.mk id (.rule selector b) block children =
        .mk id (.rule selector (some next)) (some (.mk next .block none inner)) [] ∧
      s.children next = inner.map Tree.id ∧
      ∀ t ∈ inner, ∃ d, t = .mk t.id (.declaration d) none [] ∧ s.node? t.id = some (.declaration d) ∧
        s.enclosingSelector? t.id = some selector := by
  have hn : s.node? id = some (.rule selector b) := ht.node?_eq
  obtain ⟨b, rfl, hdeclarations⟩ := hplain id selector b hn
  obtain ⟨inner, howning⟩ := hs.eq_owning ht rfl
  obtain ⟨-, -, rfl, rfl⟩ := Tree.mk.inj howning
  refine ⟨b, inner, rfl, ?_⟩
  cases ht with
  | mk _ hb _ hblock _ =>
      have hparent : s.parent? b = some id := parent?_of_block? hb
      cases hblock _ rfl with
      | mk hbn _ hc _ hinner =>
          refine ⟨hc, fun t ht => ?_⟩
          have hmem : t.id ∈ s.children b := hc ▸ List.mem_map_of_mem ht
          obtain ⟨d, hd⟩ := hdeclarations t.id hmem
          refine ⟨d, hs.eq_leaf (hinner t ht) hd, hd, ?_⟩
          rw [enclosingSelector?_of_parent? (parent?_of_mem_children hmem) hbn,
            enclosingSelector?_of_parent? hparent hn]
          rfl

theorem Coherent.located_rule (hs : s.Coherent) (hplain : s.PlainRules) {id : Nat} {b : Option Nat}
    {block : Option Tree} {children : List Tree}
    (ht : s.Shows (.mk id (.rule selector b) block children)) (m : Option String) :
    (visits m (Tree.mk id (.rule selector b) block children).events).filterMap s.locatedAt? =
      (visits m (Tree.mk id (.rule selector b) block children).events).flatMap s.locatedIn := by
  obtain ⟨next, inner, heq, hchildren, hinner⟩ := hs.eq_rule hplain ht
  obtain ⟨hlocated, hnone⟩ := located_declarations (m := m) hinner
  have hbody : (inner.map Tree.id).filterMap s.declaration? = s.declarations next := by
    rw [← hchildren]
    rfl
  have hrule : s.locatedAt? ⟨m, id, .rule selector (some next)⟩ = none := rfl
  have hblock : s.locatedAt? ⟨m, next, .block⟩ = none := rfl
  rw [heq, visits_rule, List.filterMap_cons_none hrule, List.filterMap_cons_none hblock, hlocated, hbody]
  simp [locatedIn, hnone]

/-- Where rules are plain, what is located are the declarations of the rules that are visited. -/
theorem Coherent.located_eq (hs : s.Coherent) (hplain : s.PlainRules) {t : Tree} (ht : s.Shows t)
    (hnone : s.enclosingSelector? t.id = none) (m : Option String) :
    (visits m t.events).filterMap s.locatedAt? = (visits m t.events).flatMap s.locatedIn := by
  induction ht generalizing m with
  | @mk id node block children hn hb hc hbs hcs ihb ihc =>
      have ht : s.Shows (.mk id node block children) := .mk hn hb hc hbs hcs
      cases hselector : node.selector? with
      | some selector =>
          obtain ⟨b, rfl⟩ : ∃ b, node = .rule selector b := by
            cases node <;> simp_all [Node.selector?]
          exact hs.located_rule hplain ht m
      | none =>
          have hbelow : ∀ u ∈ block.toList ++ children, ∀ m,
              (visits m u.events).filterMap s.locatedAt? = (visits m u.events).flatMap s.locatedIn := by
            intro u hu
            have hparent := (hs.parent?_eq_some_iff ht u.id).2 ⟨u, hu, rfl⟩
            have hnone' : s.enclosingSelector? u.id = none := by
              rw [enclosingSelector?_of_parent? hparent hn, hselector]
              exact hnone
            rcases List.mem_append.1 hu with hu | hu
            · exact ihb u (Option.mem_toList.1 hu) hnone'
            · exact ihc u hu hnone'
          have hself : ∀ m, s.locatedAt? ⟨m, id, node⟩ = none ∧ s.locatedIn ⟨m, id, node⟩ = [] := by
            intro m
            have hnone : s.enclosingSelector? id = none := hnone
            cases node <;> simp_all [locatedAt?, locatedIn, Node.selector?]
          simp [Tree.events_mk, visits, visits_append, hself, located_allEvents hbelow]

/-! ## The first declaration that an update could have meant -/

theorem visits_entered (m : Option String) (es : List Event) :
    (visits m es).map (fun v => (v.id, v.node)) = es.filterMap Event.entered := by
  induction es generalizing m with
  | nil => rfl
  | cons e es ih =>
      cases e with
      | enter id node => simp [visits, Event.entered, ih]
      | leave id node => rw [visits, ih, List.filterMap_cons_none rfl]

theorem node?_of_mem_visits {m : Option String} {v : Visit} (hv : v ∈ visits m s.tree.events) :
    s.node? v.id = some v.node := by
  refine s.shows_tree.node?_of_mem_preorder (v.id, v.node) ?_
  rw [Tree.preorder, ← visits_entered m]
  exact List.mem_map_of_mem hv

end Sheet

/-- Whether a declaration of the property is located where an update means it. -/
def Located.meant (selector : String) (media : Option String) (property : String) (l : Located) : Bool :=
  (media.all fun params => l.media = some params) && l.selector = selector && l.declaration.property = property

namespace Sheet

variable {s s₁ : Sheet} {selector : String} {media : Option String} {d : Declaration}

/-- Declarations of a rule are meant only if the rule is. -/
theorem meant_of_mem_locatedIn {property : String} {v : Visit} {l : Located} (hl : l ∈ s.locatedIn v) :
    l.meant selector media property =
      (v.meant selector media && decide (l.declaration.property = property)) := by
  unfold locatedIn at hl
  split at hl
  next selector' b hnode =>
    obtain ⟨e, _, rfl⟩ := List.mem_map.1 hl
    cases hall : media.all fun params => v.media = some params <;>
      simp [Located.meant, Visit.meant, hnode, hall]
  next => cases hl

/-- The first declaration of a property in a block. -/
theorem find?_declarations {b c : Nat} (hfind : (s.children b).find? (s.declares d.property) = some c)
    (hn : s.node? c = some (.declaration d)) :
    (s.declarations b).find? (·.property = d.property) = some d := by
  have hdeclares : ∀ x, s.declares d.property x = (s.declaration? x).any (·.property = d.property) := by
    intro x
    rw [declares, declaration?]
    cases s.node? x with
    | none => rfl
    | some node => cases node <;> rfl
  have hdeclarations : s.declarations b = (s.children b).filterMap s.declaration? := rfl
  simp only [hdeclarations, List.find?_filterMap, ← hdeclares, hfind]
  simp [declaration?, hn]

/-- What has been set comes first among the declarations that are meant. -/
theorem Coherent.find?_located (hs : s.Coherent) (hplain : s.PlainRules) {c : Nat}
    (h : s.Bears selector media d c) : ∃ l, l.declaration = d ∧
      ((visits none s.tree.events).filterMap s.locatedAt?).find? (Located.meant selector media d.property) =
        some l := by
  obtain ⟨hfound, hblock, hfind, hn⟩ := h
  rw [findRule?_eq (hs.whole shows_tree)] at hfound
  obtain ⟨v, hv, rfl⟩ := Option.map_eq_some_iff.1 (Except.ok.inj hfound)
  obtain ⟨hmeant, before, after, hvisits, hbefore⟩ := List.find?_eq_some_iff_append.1 hv
  have hrule : ∃ b, v.node = .rule selector b := by
    cases hnode : v.node <;> simp_all [Visit.meant]
  obtain ⟨b, hrule⟩ := hrule
  have hclaim := (node?_of_blockOf hblock).1
  rw [claim?, node?_of_mem_visits (List.mem_of_find?_eq_some hv), hrule] at hclaim
  cases hclaim
  have hnone : (before.flatMap s.locatedIn).find? (Located.meant selector media d.property) = none := by
    rw [List.find?_eq_none]
    intro l hl
    obtain ⟨v', hv', hl⟩ := List.mem_flatMap.1 hl
    have hfalse := hbefore v' hv'
    rw [Bool.not_eq_true'] at hfalse
    simp [meant_of_mem_locatedIn hl, hfalse]
  have hsome : (s.locatedIn v).find? (Located.meant selector media d.property) =
      some ⟨d, selector, v.media, PseudoState.ofSelector selector⟩ := by
    have hcongr : (s.locatedIn v).find? (Located.meant selector media d.property) =
        (s.locatedIn v).find? (·.declaration.property = d.property) := by
      refine List.find?_congr fun l hl => ?_
      rw [meant_of_mem_locatedIn hl, hmeant, Bool.true_and]
    have hfirst := find?_declarations hfind hn
    rw [hcongr, locatedIn, hrule]
    simp [List.find?_map, hfirst]
  have hroot : s.enclosingSelector? s.tree.id = none := by
    rw [show s.tree.id = root from id_treeAt root s.size_pos, enclosingSelector?,
      ancestors_root (parent?_root s)]
    rfl
  refine ⟨⟨d, selector, v.media, PseudoState.ofSelector selector⟩, rfl, ?_⟩
  rw [hs.located_eq hplain s.shows_tree hroot, hvisits, List.flatMap_append, List.find?_append, hnone,
    Option.none_or, List.flatMap_cons, List.find?_append, hsome, Option.some_or]

/-- After an update of a stylesheet without an `@media` rule in another one, the first declaration located under
its media with its selector and its property is the one that has been set. -/
theorem locate_update {css property value : String} {t : Target} (hs : read css = .ok s)
    (hbeside : ∀ m, s.isMediaRule m = true → ¬ s.MediaBelow m)
    (h : s.update property value t = .ok s₁) : ∃ d selector found l,
      Declaration.read property value = .ok d ∧
      readSelector (PseudoState.select t.selector t.state) = .ok selector ∧
      s₁.locate { media := t.media } = .ok found ∧
      found.find? (fun l => l.selector = selector ∧ l.declaration.property = d.property) = some l ∧
      l.declaration = d.marked t.important := by
  have hcoherent : s.Coherent := (Initial.read hs).coherent
  have hcoherent₁ : s₁.Coherent := (reaches_update h).coherent hcoherent
  obtain ⟨d, selector, media, hd, ht, hput⟩ := update_eq_ok.1 h
  obtain ⟨hselector, hmedia⟩ := Target.read_eq_ok.1 ht
  have hfound : ∀ params ∈ media, ¬ s.BuriesRule selector params := by
    rintro params _ ⟨_, m, htop, hbelow⟩
    obtain ⟨_, node, hn, hparams⟩ := of_topMedia? htop
    exact hbeside m (by simp [isMediaRule, hn, hparams]) hbelow
  obtain ⟨c, hbears, _⟩ := hcoherent.bears_put hfound hput
  have hplain : s₁.PlainRules := (puts_of_put hput).plainRules hcoherent (plainRules_read hs)
  have hproperty : (d.marked t.important).property = d.property := rfl
  obtain ⟨l, hl, hfind⟩ := hcoherent₁.find?_located hplain hbears
  have hlocate := locate_eq (hcoherent₁.whole shows_tree) (f := { media := t.media })
    (mapM_reading_eq_ok.2 hmedia)
  refine ⟨d, selector, _, l, hd, hselector, hlocate, ?_, hl⟩
  rw [List.find?_filter, ← hfind, hproperty]
  refine List.find?_congr fun l _ => ?_
  simp [Filter.admits, Located.meant, Bool.and_assoc]

/-- The rule outside of the `@media` rule is not meant, so that another one comes in at the end of that. -/
theorem locate_update_media : ∃ s s₁ found l, read "@media m\x7b.b\x7b\x7d\x7d.a\x7bcolor:red\x7d" = .ok s ∧
    s.update "color" "blue" { selector := ".a", media := some "m", important := true } = .ok s₁ ∧
    s₁.locate { media := some "m" } = .ok found ∧
    found.find? (fun l => l.selector = ".a" ∧ l.declaration.property = "color") = some l ∧
    l.declaration = ⟨"color", ⟨"blue", true⟩⟩ := by
  let s := ofItems [.group "media" "m" [.rule ".b" []], .rule ".a" [⟨"color", ⟨"red", false⟩⟩]]
  let edit := Edit.update "color" "blue" { selector := ".a", media := some "m", important := true }
  have hread : read "@media m\x7b.b\x7b\x7d\x7d.a\x7bcolor:red\x7d" = .ok s := by decide +kernel
  have hupdate : s.update "color" "blue" { selector := ".a", media := some "m", important := true } =
      .ok (edit.after s) := by
    decide +kernel
  have hbeside : ∀ m, s.isMediaRule m = true → ¬ s.MediaBelow m := by
    rintro m hm ⟨c, hc, hmedia⟩
    have hnone : ∀ c < s.size, s.isMediaRule c = true → ∀ m ∈ s.ancestors c, s.isMediaRule m = false := by
      decide +kernel
    have hlt : c < s.size := by
      rw [← Nat.not_le, ← node?_eq_none_iff]
      intro hout
      simp [hout] at hmedia
    rw [hnone c hlt hmedia m hc] at hm
    cases hm
  obtain ⟨d, selector, found, l, hd, hselector, hlocate, hfind, hl⟩ := locate_update hread hbeside hupdate
  have hd' : Declaration.read "color" "blue" = .ok ⟨"color", ⟨"blue", false⟩⟩ := by decide +kernel
  have hselector' : readSelector (PseudoState.select ".a" PseudoState.base.key) = .ok ".a" := by decide +kernel
  cases hd.symm.trans hd'
  cases hselector.symm.trans hselector'
  exact ⟨s, edit.after s, found, l, hread, hupdate, hlocate, hfind, hl⟩

end Sheet
end TieredStyle.Css
