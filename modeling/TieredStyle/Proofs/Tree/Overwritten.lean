import TieredStyle.Proofs.Tree.Put

/-!
# Setting a property twice

A second declaration of a property takes the place of the first, wherever that went: into a rule that was
there or into one that was appended. Only a rule that is appended at the end of an `@media` rule with another
one in it is not found again.
-/
namespace TieredStyle.Css
namespace Sheet

variable {s s₁ : Sheet} {selector : String} {media : Option String} {d₁ d₂ : Declaration}

theorem Coherent.put_put (hs : s.Coherent) (hp : d₁.property = d₂.property)
    (hb : ∀ params ∈ media, ¬ s.BuriesRule selector params) (h : s.put selector media d₁ = .ok s₁) :
    ∃ s₂, s.put selector media d₂ = .ok s₂ ∧ s₁.put selector media d₂ = .ok s₂ := by
  obtain ⟨c, hbears, hput⟩ := hs.bears_put hb h
  obtain ⟨s₂, hs₂, hput₂⟩ := hbears.put hp
  exact ⟨s₂, hput d₂ s₂ hp hs₂, hput₂⟩

/-! ## At the end of an `@media` rule with another one in it -/

theorem size_extend_rule {c : Nat} {d : Declaration}
    (hfit : FitFrom s.size ((Item.rule selector [d]).slots c s.size)) :
    (s.extend ((Item.rule selector [d]).slots c s.size) hfit).size = s.size + 3 := by
  rw [size_extend, slots_rule]
  rfl

/-- What is appended in an `@media` rule leaves it the first one with its parameters. -/
theorem Coherent.mediaContainer_extend (hs : s.Coherent) {params : String} {m b : Nat}
    (htop : s.topMedia? params = some m) (hclaim : s.claim? m = some b) (hnode : s.node? b = some .block)
    (item : Item) (hfit : FitFrom s.size (item.slots b s.size)) :
    (s.extend (item.slots b s.size) hfit).mediaContainer (some params) =
      .ok (b, s.extend (item.slots b s.size) hfit) := by
  have hlt := hs.claim_lt hclaim
  have hhangs := hangs_extend item hlt.2 hfit
  refine mediaContainer_of_topMedia? (m := m) ?_ ?_
  · have hroot : Sheet.root ≠ b := Nat.ne_of_lt (Nat.zero_lt_of_lt hlt.1)
    rw [topMedia?, hhangs.children Sheet.root s.size_pos, if_neg hroot, ← htop, topMedia?]
    refine List.find?_congr fun c hc => ?_
    rw [hhangs.node? c (lt_of_mem_children hc).2]
  · refine (hs.extend_item hnode rfl rfl item hfit).blockOf_eq ?_
    rw [claim?, hhangs.node? m (Nat.lt_trans hlt.1 hlt.2)]
    exact hclaim

/-- A rule that is appended behind an `@media` rule is not under the media around that. -/
theorem Coherent.findRule?_of_buried (hs : s.Coherent) {params : String} {m b : Nat}
    (hnone : s.findRule? selector (some params) = .ok none) (htop : s.topMedia? params = some m)
    (hbelow : s.MediaBelow m) (hclaim : s.claim? m = some b) (hnode : s.node? b = some .block)
    (hfit : FitFrom s.size ((Item.rule selector [d₁]).slots b s.size)) :
    (s.extend ((Item.rule selector [d₁]).slots b s.size) hfit).findRule? selector (some params) =
      .ok none := by
  obtain ⟨hmem, node, hn, hparams⟩ := of_topMedia? htop
  rw [claim?, hn] at hclaim
  obtain ⟨pre, post, hadopts, hforce, _⟩ := hs.adopts_media hmem hn hclaim hparams
  have hseen := Item.seen_tree none s.size (.rule selector [d₁])
  have hpost : meantIn selector (some params) none post = none := by
    rw [findRule?_eq (hs.whole shows_tree), hadopts.1, meantIn_append, hforce hbelow] at hnone
    exact (Option.or_eq_none_iff.1 (Except.ok.inj hnone)).2
  rw [hs.findRule?_extend _ hnode rfl hadopts hnone, hforce hbelow, hseen.2, Item.mediaAfter, hpost,
    meantIn_of_seen hseen, Item.ruled]
  simp [Ruled.meant]

/-- The second declaration comes in with a rule of its own. -/
theorem Coherent.size_of_buried (hs : s.Coherent) {params : String} {s₂ s₂' : Sheet}
    (hb : s.BuriesRule selector params) (h : s.put selector (some params) d₁ = .ok s₁)
    (h₂ : s₁.put selector (some params) d₂ = .ok s₂)
    (h₂' : s.put selector (some params) d₂ = .ok s₂') : s₂.size = s₂'.size + 3 := by
  obtain ⟨hnone, m, htop, hbelow⟩ := hb
  obtain ⟨b, hm, hclaim, hnode⟩ := exists_mediaContainer htop hnone h
  obtain ⟨hfit, hput⟩ := put_of_container hm hnode rfl hnone d₁
  cases hput.symm.trans h
  have hs₁ := hs.extend_item hnode rfl rfl (.rule selector [d₁]) hfit
  have hhangs := hangs_extend (.rule selector [d₁]) (lt_size_of_node? hnode) hfit
  have hnode₁ := (hhangs.node? b (lt_size_of_node? hnode)).trans hnode
  have hm₁ := hs.mediaContainer_extend htop hclaim hnode (.rule selector [d₁]) hfit
  have hnone₁ := hs.findRule?_of_buried hnone htop hbelow hclaim hnode hfit
  obtain ⟨hfit₂, hput₂⟩ := put_of_container hm₁ hnode₁ rfl hnone₁ d₂
  cases hput₂.symm.trans h₂
  obtain ⟨hfit₂', hput₂'⟩ := put_of_container hm hnode rfl hnone d₂
  cases hput₂'.symm.trans h₂'
  rw [size_extend_rule, size_extend_rule, size_extend_rule]

/-! ## Updates -/

theorem Coherent.listing (hs : s.Coherent) : ∃ l, s.listing = .ok l ∧ l.length = s.size := by
  have hline : ∀ id ∈ s.tree.ids, (s.line? id).isSome = true := by
    intro id hid
    rw [hs.perm_ids.mem_iff, List.mem_range] at hid
    rw [line?, node?_of_lt hid]
    rfl
  refine ⟨s.tree.ids.filterMap s.line?, ?_, ?_⟩
  · rw [listing_eq, hs.entered]
    rfl
  · rw [List.filterMap_length_eq_length.2 hline, hs.perm_ids.length_eq, List.length_range]

variable {property value : String} {t : Target}

/-- An update with this target would append a rule that is not found again. -/
def Buries (s : Sheet) (t : Target) : Prop :=
  ∃ selector params, t.read = .ok (selector, some params) ∧ s.BuriesRule selector params

/-- A second update of a property comes to the same as if it were the first, unless the first one buries
its rule. -/
theorem update_update_iff {css v₁ v₂ : String} {w : Value} (hs : read css = .ok s)
    (h₁ : s.update property v₁ t = .ok s₁) (hw : readValue v₂ = .ok w) :
    (∃ s₂ s₂' lines, s₁.update property v₂ t = .ok s₂ ∧ s.update property v₂ t = .ok s₂' ∧
      s₂.listing = .ok lines ∧ s₂'.listing = .ok lines) ↔ ¬ s.Buries t := by
  have hcoherent : s.Coherent := (Initial.read hs).coherent
  obtain ⟨d₁, selector, media, hd₁, ht, hput₁⟩ := update_eq_ok.1 h₁
  have hd₂ : Declaration.read property v₂ = .ok ⟨d₁.property, w⟩ :=
    Declaration.read_eq_ok.2 ⟨(Declaration.read_eq_ok.1 hd₁).1, hw⟩
  constructor
  · -- a buried rule shows in the number of the lines
    rintro ⟨s₂, s₂', lines, h₂, h₂', hlines, hlines'⟩ ⟨selector', params, ht', hb⟩
    cases ht.symm.trans ht'
    obtain ⟨e, _, _, he, hte, hput₂⟩ := update_eq_ok.1 h₂
    cases hd₂.symm.trans he
    cases ht.symm.trans hte
    obtain ⟨e', _, _, he', hte', hput₂'⟩ := update_eq_ok.1 h₂'
    cases hd₂.symm.trans he'
    cases ht.symm.trans hte'
    have hsize := hcoherent.size_of_buried hb hput₁ hput₂ hput₂'
    have hs₂ := (reaches_update h₂).coherent ((reaches_update h₁).coherent hcoherent)
    obtain ⟨l, hl, hlength⟩ := hs₂.listing
    cases hl.symm.trans hlines
    obtain ⟨l', hl', hlength'⟩ := ((reaches_update h₂').coherent hcoherent).listing
    cases hl'.symm.trans hlines'
    omega
  · intro hb
    have hb' : ∀ params ∈ media, ¬ s.BuriesRule selector params := by
      rintro params hp hrule
      cases hp
      exact hb ⟨selector, params, ht, hrule⟩
    have hsame : (d₁.marked t.important).property =
        (Declaration.marked ⟨d₁.property, w⟩ t.important).property := rfl
    obtain ⟨s₂, hput₂, hput₂'⟩ := hcoherent.put_put hsame hb' hput₁
    have h₂ : s₁.update property v₂ t = .ok s₂ := update_eq_ok.2 ⟨_, selector, media, hd₂, ht, hput₂'⟩
    have h₂' : s.update property v₂ t = .ok s₂ := update_eq_ok.2 ⟨_, selector, media, hd₂, ht, hput₂⟩
    obtain ⟨lines, hlines, _⟩ := ((reaches_update h₂').coherent hcoherent).listing
    exact ⟨s₂, s₂, lines, h₂, h₂', hlines, hlines⟩

/-- A rule is appended in the `@media` rule, and the second update finds it there. -/
theorem update_update_media : ∃ s s₁, read "@media a\x7b.b\x7b\x7d\x7d" = .ok s ∧
    s.update "color" "red" { selector := ".a", media := some "a" } = .ok s₁ ∧
    readValue "blue" = .ok ⟨"blue", false⟩ ∧
    ∃ s₂ s₂' lines, s₁.update "color" "blue" { selector := ".a", media := some "a" } = .ok s₂ ∧
      s.update "color" "blue" { selector := ".a", media := some "a" } = .ok s₂' ∧
      s₂.listing = .ok lines ∧ s₂'.listing = .ok lines := by
  have hread : read "@media a\x7b.b\x7b\x7d\x7d" = .ok (.ofItems [.group "media" "a" [.rule ".b" []]]) := by
    decide +kernel
  have hupdate : (ofItems [.group "media" "a" [.rule ".b" []]]).update "color" "red"
      { selector := ".a", media := some "a" } =
        .ok ((Edit.update "color" "red" { selector := ".a", media := some "a" }).after
          (ofItems [.group "media" "a" [.rule ".b" []]])) := by
    decide +kernel
  have hvalue : readValue "blue" = .ok ⟨"blue", false⟩ := by decide +kernel
  refine ⟨_, _, hread, hupdate, hvalue, (update_update_iff hread hupdate hvalue).2 ?_⟩
  rintro ⟨selector, params, ht, _, m, htop, c, hc, hmedia⟩
  have hread : Target.read { selector := ".a", media := some "a" } = .ok (".a", some "a") := by decide +kernel
  cases ht.symm.trans hread
  have hfirst : (ofItems [.group "media" "a" [.rule ".b" []]]).topMedia? "a" = some 1 := by decide +kernel
  cases htop.symm.trans hfirst
  have hnone : ∀ c < 5, 1 ∈ (ofItems [.group "media" "a" [.rule ".b" []]]).ancestors c →
      (((ofItems [.group "media" "a" [.rule ".b" []]]).node? c).bind Node.media?).isSome = false := by
    decide +kernel
  by_cases hlt : c < 5
  · rw [hnone c hlt hc] at hmedia
    cases hmedia
  · rw [node?_eq_none_iff.2 (Nat.le_of_not_lt hlt)] at hmedia
    cases hmedia

/-- The rule that is appended stands behind an `@media` rule, and repeating the update appends another. -/
theorem exists_update_update_ne : ∃ s s₁ w, read "@media a\x7b@media b\x7b\x7d\x7d" = .ok s ∧
    s.update "color" "red" { selector := ".a", media := some "a" } = .ok s₁ ∧ readValue "red" = .ok w ∧
    ¬ ∃ s₂ s₂' lines, s₁.update "color" "red" { selector := ".a", media := some "a" } = .ok s₂ ∧
      s.update "color" "red" { selector := ".a", media := some "a" } = .ok s₂' ∧
      s₂.listing = .ok lines ∧ s₂'.listing = .ok lines := by
  let again := Edit.update "color" "red" { selector := ".a", media := some "a" }
  let s := ofItems [.group "media" "a" [.group "media" "b" []]]
  have hread : read "@media a\x7b@media b\x7b\x7d\x7d" = .ok s := by decide +kernel
  have hupdate : s.update "color" "red" { selector := ".a", media := some "a" } = .ok (again.after s) := by
    decide +kernel
  have hagain : (again.after s).update "color" "red" { selector := ".a", media := some "a" } =
      .ok (again.after (again.after s)) := by
    decide +kernel
  have hvalue : readValue "red" = .ok ⟨"red", false⟩ := by decide +kernel
  refine ⟨s, again.after s, _, hread, hupdate, hvalue, ?_⟩
  rintro ⟨s₂, s₂', lines, h₂, h₂', hlines, hlines'⟩
  cases hagain.symm.trans h₂
  cases hupdate.symm.trans h₂'
  have hne : (again.after (again.after s)).listing ≠ (again.after s).listing := by decide +kernel
  exact hne (hlines.trans hlines'.symm)

end Sheet
end TieredStyle.Css
