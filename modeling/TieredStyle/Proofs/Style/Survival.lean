import TieredStyle.Proofs.Printing.Exact
import TieredStyle.Proofs.Style.Projected

/-!
# Which projected stylesheets survive a print

Each text of a projected stylesheet is read on its own before it is put there. That is not enough to be
read back: a bracket that a text leaves open takes in what is printed after it. The stylesheet survives
exactly if each of its texts survives on its own.
-/
namespace TieredStyle
open TieredStyle.Css

variable {f : Format}

/-- The text of a node in a stylesheet of its own: a selector before an empty block, or a declaration
alone in the block of a rule. -/
def Css.Node.alone? : Node → Option Sheet
  | .rule selector _ => some (.ofItems [.rule selector []])
  | .declaration d => some (.ofItems [.rule "a" [d]])
  | _ => none

/-- The text of a node, if it has one, survives on its own. -/
def Css.Node.SurvivesAlone (f : Format) (node : Node) : Prop :=
  ∀ alone, node.alone? = some alone → alone.Survives f

namespace Css

theorem survives_rule {selector : String} {body : List Declaration} :
    (Sheet.ofItems [.rule selector body]).Survives f ↔
      Cut .selector Selects f.isSpaced selector ∧ ∀ d ∈ body, d.Legible f := by
  have hnamed : ItemsWellNamed [.rule selector body] := ⟨trivial, trivial⟩
  rw [survives_iff_legible hnamed, ItemsLegible, ItemsLegible, Item.Legible, and_true]

theorem survives_a (f : Format) : (Sheet.ofItems [.rule "a" []]).Survives f := by
  have hread : Sheet.read ((Sheet.ofItems [.rule "a" []]).print f) = .ok (.ofItems [.rule "a" []]) := by
    cases f <;> decide +kernel
  have hlisting := Sheet.listing_ofItems [.rule "a" []]
  exact ⟨_, _, hread, hlisting, hlisting⟩

theorem survivesAlone_rule {selector : String} {b : Option Nat} :
    (Node.rule selector b).SurvivesAlone f ↔ Cut .selector Selects f.isSpaced selector := by
  constructor
  · intro h
    exact (survives_rule.1 (h _ rfl)).1
  · intro h alone halone
    cases halone
    exact survives_rule.2 ⟨h, fun d hd => by cases hd⟩

theorem survivesAlone_declaration {d : Declaration} :
    (Node.declaration d).SurvivesAlone f ↔ d.Legible f := by
  constructor
  · intro h
    exact (survives_rule.1 (h _ rfl)).2 d List.mem_cons_self
  · intro h alone halone
    cases halone
    refine survives_rule.2 ⟨(survives_rule.1 (survives_a f)).1, fun e he => ?_⟩
    cases List.mem_singleton.1 he
    exact h

/-! ## The nodes of entries -/

/-- Each of the nodes survives alone. -/
def AllAlone (f : Format) (slots : List Slot) : Prop := ∀ slot ∈ slots, slot.node.SurvivesAlone f

theorem allAlone_cons {slot : Slot} {slots : List Slot} :
    AllAlone f (slot :: slots) ↔ slot.node.SurvivesAlone f ∧ AllAlone f slots := by
  simp [AllAlone]

theorem allAlone_append {l₁ l₂ : List Slot} :
    AllAlone f (l₁ ++ l₂) ↔ AllAlone f l₁ ∧ AllAlone f l₂ := by
  simp [AllAlone, or_imp, forall_and]

theorem allAlone_declarationSlots {block : Nat} {ds : List Declaration} :
    AllAlone f (declarationSlots block ds) ↔ ∀ d ∈ ds, d.Legible f := by
  simp [AllAlone, declarationSlots, survivesAlone_declaration]

theorem survivesAlone_of_alone?_eq_none {node : Node} (h : node.alone? = none) :
    node.SurvivesAlone f := by
  intro alone halone
  rw [h] at halone
  cases halone

theorem allAlone_rule {selector : String} {body : List Declaration} (owner next depth : Nat) :
    AllAlone f ((Item.rule selector body).slots owner next) ↔
      (Item.rule selector body).Legible f depth := by
  rw [Item.slots, allAlone_cons, allAlone_cons, survivesAlone_rule, allAlone_declarationSlots,
    Item.Legible]
  exact and_congr_right fun _ => and_iff_right (survivesAlone_of_alone?_eq_none rfl)

theorem allAlone_itemSlots {depth : Nat} {items : List Item}
    (h : ∀ item ∈ items, ∀ owner next, AllAlone f (item.slots owner next) ↔ item.Legible f depth)
    (owner next : Nat) : AllAlone f (itemSlots owner next items) ↔ ItemsLegible f depth items := by
  induction items generalizing next with
  | nil =>
      rw [itemSlots]
      exact iff_of_true (fun slot hslot => by cases hslot) trivial
  | cons item items ih =>
      rw [itemSlots, allAlone_append, ItemsLegible, h item List.mem_cons_self,
        ih fun item hmem => h item (List.mem_cons_of_mem _ hmem)]

theorem allAlone_media {params : String} {rules : List Item}
    (hparams : HeadLegible f.isSpaced "media" params)
    (hrules : ∀ item ∈ rules, ∃ selector body, item = .rule selector body) (owner next : Nat) :
    AllAlone f ((Item.group "media" params rules).slots owner next) ↔
      (Item.group "media" params rules).Legible f 0 := by
  have heach : ∀ item ∈ rules, ∀ owner next,
      AllAlone f (item.slots owner next) ↔ item.Legible f 1 := by
    intro item hmem owner next
    obtain ⟨selector, body, rfl⟩ := hrules item hmem
    exact allAlone_rule owner next 1
  have hbody := allAlone_itemSlots heach (next + 1) (next + 2)
  rw [Item.slots, allAlone_cons, allAlone_cons, hbody, Item.Legible]
  constructor
  · rintro ⟨_, _, h⟩
    exact ⟨holdsItems_media, by decide, hparams, h⟩
  · rintro ⟨_, _, _, h⟩
    exact ⟨survivesAlone_of_alone?_eq_none rfl, survivesAlone_of_alone?_eq_none rfl, h⟩

theorem allAlone_ofItems {items : List Item} :
    AllAlone f (itemSlots Sheet.root 1 items) ↔
      ∀ id node, (Sheet.ofItems items).node? id = some node → node.SurvivesAlone f := by
  have hnodes : ∀ id node, (Sheet.ofItems items).node? id = some node ↔
      ∃ slot, (⟨.stylesheet, .root⟩ :: itemSlots Sheet.root 1 items)[id]? = some slot ∧
        slot.node = node := by
    intro id node
    rw [Sheet.node?, Option.map_eq_some_iff, Sheet.ofItems, List.getElem?_toArray]
  constructor
  · intro h id node hnode
    obtain ⟨slot, hslot, rfl⟩ := (hnodes id node).1 hnode
    rcases List.mem_cons.1 (List.mem_of_getElem? hslot) with rfl | hmem
    · exact survivesAlone_of_alone?_eq_none rfl
    · exact h slot hmem
  · intro h slot hmem
    obtain ⟨i, hi⟩ := List.mem_iff_getElem?.1 hmem
    exact h (i + 1) slot.node ((hnodes _ _).2 ⟨slot, hi, rfl⟩)

end Css

namespace Breakpoint

/-- The `@media` of a tier survives a print. -/
theorem headLegible_params {b : Breakpoint} {params : String} (h : b.params? = some params) (f : Format) :
    HeadLegible f.isSpaced "media" params := by
  have hread : Sheet.read ((Sheet.ofItems [.group "media" params []]).print f) =
      .ok (.ofItems [.group "media" params []]) := by
    cases b
    case base => cases h
    all_goals
      cases h
      cases f <;> decide +kernel
  have hlisting := Sheet.listing_ofItems [.group "media" params []]
  have hnamed : ItemsWellNamed [.group "media" params []] :=
    ⟨⟨holdsItems_media, trivial⟩, trivial⟩
  have hlegible := (survives_iff_legible hnamed).1 ⟨_, _, hread, hlisting, hlisting⟩
  rw [ItemsLegible, Item.Legible] at hlegible
  exact hlegible.1.2.2.1

end Breakpoint
namespace Style

theorem RulesOf.eq_rule {selector : String} {es : List (String × Properties)} {rules : List Item}
    (h : RulesOf selector es rules) : ∀ item ∈ rules, ∃ σ body, item = .rule σ body := by
  intro item hmem
  obtain ⟨e, _, hrule⟩ := exists_of_mem_right h hmem
  obtain ⟨σ, ds, hitem, _⟩ := ruleOf_eq_ok.1 hrule
  exact ⟨σ, ds, hitem⟩

/-- A projected entry is a rule, or rules inside the `@media` of a tier. -/
theorem rule_or_media {s : Style} {selector : String} {items : List Item}
    (h : s.toItems selector = .ok items) : ∀ item ∈ items, (∃ σ body, item = .rule σ body) ∨
      ∃ b : Breakpoint, ∃ params rules, b.params? = some params ∧ item = .group "media" params rules ∧
        ∀ rule ∈ rules, ∃ σ body, rule = .rule σ body := by
  obtain ⟨σ, tiers, _, htiers, rfl⟩ := toItems_eq_ok.1 h
  intro item hmem
  obtain ⟨tier, htier, hitem⟩ := List.mem_flatten.1 hmem
  obtain ⟨e, _, htier⟩ := exists_of_mem_right htiers htier
  obtain ⟨rules, hrules, htier⟩ := itemsOf_eq_ok.1 htier
  split at htier
  · rw [htier] at hitem
    exact .inl (hrules.eq_rule item hitem)
  next params hparams =>
    obtain ⟨b, _, hb⟩ := Option.bind_eq_some_iff.1 hparams
    rw [htier] at hitem
    split at hitem
    · cases hitem
    · exact .inr ⟨b, params, rules, hb, List.mem_singleton.1 hitem, hrules.eq_rule⟩

theorem wellNamed_of_mem {items : List Item} (h : ∀ item ∈ items, item.WellNamed) :
    ItemsWellNamed items := by
  induction items with
  | nil => trivial
  | cons item items ih =>
      exact ⟨h item List.mem_cons_self, ih fun item hmem => h item (List.mem_cons_of_mem _ hmem)⟩

theorem wellNamed_toItems {s : Style} {selector : String} {items : List Item}
    (h : s.toItems selector = .ok items) : ItemsWellNamed items := by
  refine wellNamed_of_mem fun item hmem => ?_
  rcases rule_or_media h item hmem with ⟨σ, body, rfl⟩ | ⟨b, params, rules, _, rfl, hrules⟩
  · trivial
  · refine ⟨holdsItems_media, wellNamed_of_mem fun rule hrule => ?_⟩
    obtain ⟨σ, body, rfl⟩ := hrules rule hrule
    trivial

/-- A projected stylesheet survives a print exactly if each selector and each declaration in it survives
on its own. -/
theorem survives_toSheet_iff {s : Style} {selector : String} {sheet : Sheet}
    (h : s.toSheet selector = .ok sheet) (f : Format) :
    sheet.Survives f ↔ ∀ id node, sheet.node? id = some node → node.SurvivesAlone f := by
  obtain ⟨items, hitems, rfl⟩ := toSheet_eq_ok.1 h
  rw [survives_iff_legible (wellNamed_toItems hitems), ← allAlone_ofItems]
  refine (allAlone_itemSlots (fun item hmem owner next => ?_) Sheet.root 1).symm
  rcases rule_or_media hitems item hmem with ⟨σ, body, rfl⟩ | ⟨b, params, rules, hb, rfl, hrules⟩
  · exact allAlone_rule owner next 0
  · exact allAlone_media (b.headLegible_params hb f) hrules owner next

/-- A style with an important value, under a selector whose blanks are dropped. -/
theorem survives_toSheet_hover : ∃ sheet,
    ((default : Style).set "md" "hover" "color" "red ! important").toSheet ".a > b" = .ok sheet ∧
      (sheet.Survives .pretty ↔
        ∀ id node, sheet.node? id = some node → node.SurvivesAlone .pretty) := by
  have h : ((default : Style).set "md" "hover" "color" "red ! important").toSheet ".a > b" =
      .ok (.ofItems [.group "media" "(max-width:992px)"
        [.rule ".a>b:hover" [⟨"color", ⟨"red", true⟩⟩]]]) := by
    decide +kernel
  exact ⟨_, h, survives_toSheet_iff h .pretty⟩

/-- The bracket that the first value leaves open takes in the second declaration. -/
theorem not_survives_bracket : ∃ sheet,
    (((default : Style).set "default" "default" "x" "(").set "default" "default" "y" ")").toSheet
      ".a" = .ok sheet ∧ ¬sheet.Survives .compact := by
  have h : (((default : Style).set "default" "default" "x" "(").set "default" "default" "y" ")").toSheet
      ".a" = .ok (.ofItems [.rule ".a" [⟨"x", ⟨"(", false⟩⟩, ⟨"y", ⟨")", false⟩⟩]]) := by
    decide +kernel
  refine ⟨_, h, ?_⟩
  rintro ⟨again, listing, hread, hlisting, hagain⟩
  have hone : Sheet.read ((Sheet.ofItems
      [.rule ".a" [⟨"x", ⟨"(", false⟩⟩, ⟨"y", ⟨")", false⟩⟩]]).print .compact) =
      .ok (.ofItems [.rule ".a" [⟨"x", ⟨"(;y:)", false⟩⟩]]) := by
    decide +kernel
  cases hone.symm.trans hread
  rw [Sheet.listing_ofItems] at hlisting hagain
  cases hlisting
  exact absurd hagain (by decide +kernel)

end Style
end TieredStyle
