import TieredStyle.Proofs.Style.Combined
import TieredStyle.Proofs.Style.RoundTrip
import TieredStyle.Proofs.Style.Survival
import TieredStyle.Proofs.Tree.Enclosed

/-!
# Merged styles on a screen

On a screen of some width, of the declarations of a property that apply the last one counts. A merged style
is written from the widest tier to the narrowest, so that this one comes from the narrowest tier that takes
the width and sets the property.
-/
namespace TieredStyle
open TieredStyle.Css

/-- Whether a tier takes a width. -/
def Breakpoint.fits (b : Breakpoint) (w : Rat) : Bool := b.maxWidth?.all fun max : Nat => w ≤ max

/-- Whether media hold on a screen of some width: there are none, or their greatest width is not exceeded. -/
def Css.mediaHold (media : Option String) (w : Rat) : Bool :=
  media.all fun params => (Breakpoint.width? params.toList).any fun max : Nat => w ≤ max

/-- Whether a declaration sets a property under a selector on a screen of some width. -/
def Css.Located.applies (l : Located) (selector property : String) (w : Rat) : Bool :=
  l.selector = selector && l.declaration.property = property && mediaHold l.media w

/-- The value of a property in the narrowest tier that takes a width and sets the property. -/
def Style.resolve (s : Style) (w : Rat) (p : PseudoState) (property : String) : Option String :=
  (Breakpoint.ascending ++ [Breakpoint.base]).findSome? fun b =>
    if b.fits w then s.get? b.key p.key property else none

/-- The media of a tier hold where the tier takes the width. -/
theorem Breakpoint.mediaHold_params? (b : Breakpoint) (w : Rat) : mediaHold b.params? w = b.fits w := by
  have hwidth : b.params?.map (fun params => width? params.toList) = b.maxWidth?.map some := by
    cases b <;> decide
  have hall := congrArg (Option.all (Option.any fun max : Nat => w ≤ max)) hwidth
  rw [Option.all_map, Option.all_map] at hall
  exact hall

/-! ## First finds -/

section

variable {α β γ δ : Type}

/-- A search in which all finds are equal. -/
theorem findSome?_eq_of_iff {as : List α} {f : α → Option γ} {found : Option γ}
    (h : ∀ c, (∃ a ∈ as, f a = some c) ↔ found = some c) : as.findSome? f = found := by
  cases hf : as.findSome? f with
  | some c => exact ((h c).1 (List.exists_of_findSome?_eq_some hf)).symm
  | none =>
      rw [List.findSome?_eq_none_iff] at hf
      refine (Option.eq_none_iff_forall_ne_some.2 fun c hc => ?_).symm
      obtain ⟨a, ha, hfa⟩ := (h c).2 hc
      cases (hf a ha).symm.trans hfa

theorem findSome?_flatMap (as : List α) (f : α → List β) (g : β → Option γ) :
    (as.flatMap f).findSome? g = as.findSome? fun a => (f a).findSome? g := by
  rw [← List.head?_filterMap, List.filterMap_flatMap, List.head?_flatMap]
  simp only [List.head?_filterMap]

/-- Searches in related lists that find related things at related places. -/
theorem rel_findSome? {P : α → β → Prop} {R : γ → δ → Prop} {f : α → Option γ} {g : β → Option δ}
    {as : List α} {bs : List β} (h : List.Forall₂ P as bs)
    (hfg : ∀ a ∈ as, ∀ b, P a b → Option.Rel R (f a) (g b)) :
    Option.Rel R (as.findSome? f) (bs.findSome? g) := by
  induction h with
  | nil => exact .none
  | @cons a b as bs hab _ ih =>
      have hhead := hfg a List.mem_cons_self b hab
      rw [List.findSome?_cons, List.findSome?_cons]
      cases hf : f a <;> cases hg : g b <;> rw [hf, hg] at hhead
      · exact ih fun a ha => hfg a (List.mem_cons_of_mem _ ha)
      · cases hhead
      · cases hhead
      · exact hhead

end

namespace Style

/-! ## The entries of a style, the last first -/

/-- What an entry says about a property in a state on a screen of some width. -/
def Entry.valueAt (w : Rat) (p : PseudoState) (property : String) (e : Entry) : Option String :=
  if (Breakpoint.ofKey? e.breakpoint).any (·.fits w) ∧ e.state = p.key then e.properties.get? property
  else none

/-- The states of a tier are different, so their order does not matter for a search for one of them. -/
theorem findSome?_entriesOf (bp : String) (states : States) (w : Rat) (p : PseudoState)
    (property : String) : (entriesOf bp states).reverse.findSome? (Entry.valueAt w p property) =
      if (Breakpoint.ofKey? bp).any (·.fits w) then (states.get? p.key).bind (·.get? property)
      else none := by
  refine findSome?_eq_of_iff fun v => ?_
  rw [Option.ite_none_right_eq_some, Option.bind_eq_some_iff]
  constructor
  · rintro ⟨e, he, hv⟩
    obtain ⟨x, hx, rfl⟩ := List.mem_map.1 (List.mem_reverse.1 he)
    obtain ⟨⟨hfits, hstate⟩, hv⟩ := Option.ite_none_right_eq_some.1 hv
    refine ⟨hfits, x.2, ?_, hv⟩
    rw [← hstate, OrderedMap.get?_eq_some_iff]
    exact (List.mem_filter.1 hx).1
  · rintro ⟨hfits, properties, hproperties, hv⟩
    have hne : properties.isEmpty = false := by
      rw [OrderedMap.isEmpty, List.isEmpty_eq_false_iff]
      exact List.ne_nil_of_mem (OrderedMap.get?_eq_some_iff.1 hv)
    have hmem : (p.key, properties) ∈ states.entries.filter (!·.2.isEmpty) :=
      List.mem_filter.2 ⟨OrderedMap.get?_eq_some_iff.1 hproperties, by rw [hne]; rfl⟩
    refine ⟨⟨bp, p.key, properties⟩, List.mem_reverse.2 (List.mem_map.2 ⟨_, hmem, rfl⟩), ?_⟩
    exact Option.ite_none_right_eq_some.2 ⟨⟨hfits, rfl⟩, hv⟩

/-- In a style with all tiers the entry that comes last is that of the narrowest tier. -/
theorem findSome?_entries {s : Style} (h : s.layers.keys = Breakpoint.all.map (·.key)) (w : Rat)
    (p : PseudoState) (property : String) :
    s.entries.reverse.findSome? (Entry.valueAt w p property) = s.resolve w p property := by
  have hall : Breakpoint.all.reverse = Breakpoint.ascending ++ [Breakpoint.base] := rfl
  rw [entries, List.reverse_flatMap, findSome?_flatMap]
  simp only [Function.comp_apply, findSome?_entriesOf]
  rw [OrderedMap.entries_eq, h, ← List.filterMap_reverse, ← List.map_reverse, hall,
    ← List.head?_filterMap, List.filterMap_filterMap, List.head?_filterMap, List.findSome?_map, resolve]
  congr 1
  funext b
  rw [Function.comp_apply, get?, lookup]
  cases hstates : s.layers.get? b.key with
  | none => simp
  | some states =>
      rw [Option.map_some, Option.bind_some, Breakpoint.ofKey?_key, Option.any_some, Option.bind_some]
      cases states.get? p.key <;> rfl

/-! ## What is written for an entry -/

/-- The last declaration of a rule that applies stands for the value that the entry has. -/
theorem Entry.Writes.rel_valueAt {selector : String} {e : Entry} {r : Ruled} (h : e.Writes selector r)
    (hselector : readSelector selector = .ok selector) {b : Breakpoint} (hb : b.key = e.breakpoint)
    {q : PseudoState} (hq : q.key = e.state) (hkeys : ∀ k ∈ e.properties.keys, readProperty k = .ok k)
    (w : Rat) (p : PseudoState) (property : String) :
    Option.Rel (fun v l => readValue v = .ok l.declaration.value) (e.valueAt w p property)
      (r.located.reverse.find? (·.applies (p.applyTo selector) property w)) := by
  have hmedia : mediaHold r.media w = b.fits w := by
    rw [h.media, ← hb, Breakpoint.ofKey?_key, Option.bind_some, b.mediaHold_params?]
  have hrule : r.selector = q.applyTo selector := by
    have hread := h.selector
    rw [← hq] at hread
    exact (Except.ok.inj ((readSelector_applyTo hselector q).symm.trans hread)).symm
  have hstate : r.selector = p.applyTo selector ↔ e.state = p.key := by
    rw [hrule, ← hq]
    constructor
    · intro happly
      rw [PseudoState.applyTo_inj happly]
    · intro hkey
      rw [PseudoState.applyTo, PseudoState.applyTo, hkey]
  have hbody : List.Forall₂ (fun x l => Declaration.read x.1 x.2 = .ok l.declaration ∧
      l.selector = r.selector ∧ l.media = r.media) e.properties.entries r.located :=
    List.forall₂_map_right_iff.2 (h.body.imp fun _ _ hd => ⟨hd, rfl, rfl⟩)
  rw [Entry.valueAt, ← hb, Breakpoint.ofKey?_key, Option.any_some]
  split
  next hholds =>
    rw [← OrderedMap.lookup_reverse_entries, List.lookup_eq_findSome?, List.find?_eq_findSome?_guard]
    refine rel_findSome? (List.forall₂_reverse_iff.2 hbody) fun x hx l hl => ?_
    obtain ⟨hread, hselector', hmedia'⟩ := hl
    obtain ⟨hproperty, hvalue⟩ := Declaration.read_eq_ok.1 hread
    have hkey := hkeys x.1 (List.mem_map_of_mem (List.mem_reverse.1 hx))
    have happlies : l.applies (p.applyTo selector) property w = (property == x.1) := by
      rw [Located.applies, hselector', hmedia', hmedia, ← Except.ok.inj (hkey.symm.trans hproperty)]
      simp [hstate.2 hholds.2, hholds.1, eq_comm, beq_eq_decide]
    rw [Option.guard, happlies]
    split
    · exact .some hvalue
    · exact .none
  next hholds =>
    have hnone : ∀ l ∈ r.located.reverse, ¬l.applies (p.applyTo selector) property w = true := by
      intro l hl happlies
      obtain ⟨d, _, rfl⟩ := List.mem_map.1 (List.mem_reverse.1 hl)
      simp only [Located.applies, Bool.and_eq_true, decide_eq_true_eq, hmedia] at happlies
      exact hholds ⟨happlies.2, hstate.1 happlies.1.1⟩
    rw [List.find?_eq_none.2 hnone]
    exact .none

theorem unnested_toItems {s : Style} {selector : String} {items : List Item}
    (h : s.toItems selector = .ok items) :
    ∀ item ∈ items, ∀ next, (item.tree next).Unnested [.stylesheet] := by
  intro item hitem next
  rcases rule_or_media h item hitem with ⟨σ, body, rfl⟩ | ⟨b, params, rules, _, rfl, hrules⟩
  · exact unnested_rule σ body next
  · exact unnested_group next rfl hrules

/-- Of the declarations of a property that apply in a state on a screen of some width, the last one carries
the value that the merged style has in the narrowest tier that takes the width and sets the property, and
none applies if there is no such tier. -/
theorem resolve_toSheet {styles : List Style} {selector : String} {sheet : Sheet}
    (hselector : readSelector selector = .ok selector)
    (hkeys : ∀ properties ∈ (merge .standard styles).addressed, ∀ k ∈ properties.keys,
      readProperty k = .ok k)
    (h : (merge .standard styles).toSheet selector = .ok sheet) :
    ∃ found, sheet.enclosed = .ok found ∧ ∀ (w : Rat) (p : PseudoState) (property : String),
      ∃ σ, readSelector (p.applyTo selector) = .ok σ ∧
        Option.Rel (fun v l => readValue v = .ok l.declaration.value)
          ((merge .standard styles).resolve w p property)
          ((found.filter (·.applies σ property w)).getLast?) := by
  obtain ⟨items, hitems, rfl⟩ := toSheet_eq_ok.1 h
  obtain ⟨_, hσ, hwrites⟩ := writes_toItems hitems
  cases hselector.symm.trans hσ
  refine ⟨_, Sheet.enclosed_ofItems (unnested_toItems hitems), fun w p property => ?_⟩
  refine ⟨_, readSelector_applyTo hselector p, ?_⟩
  have htiers : (merge .standard styles).layers.keys = Breakpoint.all.map (·.key) := keys_merge ..
  rw [List.getLast?_filter, List.reverse_flatMap, List.find?_flatMap, ← findSome?_entries htiers]
  refine rel_findSome? (List.forall₂_reverse_iff.2 hwrites) fun e he r hr => ?_
  have he := List.mem_reverse.1 he
  obtain ⟨⟨b, hb⟩, q, hq⟩ := exists_keys_of_shape (shape_merge_standard styles) (mem_entries.1 he).1
  exact hr.rel_valueAt hselector hb hq (hkeys _ (exists_of_mem_entries he).2.1) w p property

/-- Three tiers give a hovered element a color. -/
def hovered : Style :=
  (((default : Style).set "default" "hover" "color" "red").set "md" "hover" "color"
    "blue!important").set "sm" "hover" "color" "tan"

/-- On a screen that the second of the tiers takes and the third does not, the second gives the color. -/
theorem resolve_toSheet_hover : ∃ sheet found, (merge .standard [hovered]).toSheet "a" = .ok sheet ∧
    sheet.enclosed = .ok found ∧
      ∃ l, (found.filter (·.applies "a:hover" "color" (1983 / 2))).getLast? = some l ∧
        l.declaration.value = ⟨"blue", true⟩ := by
  have htoSheet : (merge .standard [hovered]).toSheet "a" =
      .ok (.ofItems [.rule "a:hover" [⟨"color", ⟨"red", false⟩⟩],
        .group "media" "(max-width:992px)" [.rule "a:hover" [⟨"color", ⟨"blue", true⟩⟩]],
        .group "media" "(max-width:768px)" [.rule "a:hover" [⟨"color", ⟨"tan", false⟩⟩]]]) := by
    decide +kernel
  have hselector : readSelector (PseudoState.hover.applyTo "a") = .ok "a:hover" := by decide +kernel
  have hvalue : (merge .standard [hovered]).resolve (1983 / 2) .hover "color" =
      some "blue!important" := by
    decide +kernel
  have hread : readValue "blue!important" = .ok ⟨"blue", true⟩ := by decide +kernel
  obtain ⟨found, hfound, hresolve⟩ := resolve_toSheet (by decide +kernel) (by decide +kernel) htoSheet
  obtain ⟨σ, hσ, hrel⟩ := hresolve (1983 / 2) .hover "color"
  cases hselector.symm.trans hσ
  refine ⟨_, found, htoSheet, hfound, ?_⟩
  rw [hvalue] at hrel
  generalize (found.filter (·.applies "a:hover" "color" (1983 / 2))).getLast? = last at hrel ⊢
  cases hrel with
  | some hl => exact ⟨_, rfl, Except.ok.inj (hl.symm.trans hread)⟩

end Style
end TieredStyle
