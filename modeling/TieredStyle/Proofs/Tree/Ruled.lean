import TieredStyle.Css.Query
import TieredStyle.Proofs.Tree.Visits

/-!
# The rules of entries

The rules that a fold under media sees in a stylesheet of entries, each with its number, what it says and
the media in force.
-/
namespace TieredStyle.Css

/-- A rule at its place. -/
structure Ruled where
  media : Option String
  id : Nat
  selector : String
  body : List Declaration

namespace Ruled

def visit (r : Ruled) : Visit := ⟨r.media, r.id, .rule r.selector (some (r.id + 1))⟩

def tree (r : Ruled) : Tree := .owning r.id (.rule r.selector) (declarationTrees (r.id + 2) r.body)

end Ruled

mutual
/-- The media in force after an entry. -/
def Item.mediaAfter (m : Option String) : Item → Option String
  | .rule .. => m
  | .statement name _ => if isMedia name then none else m
  | .descriptors name _ _ => if isMedia name then none else m
  | .group name _ body => if isMedia name then none else mediaAfterAll m body

def mediaAfterAll (m : Option String) : List Item → Option String
  | [] => m
  | item :: items => mediaAfterAll (item.mediaAfter m) items
end

mutual
/-- The rules of an entry that is numbered from `next` on. -/
def Item.ruled (m : Option String) (next : Nat) : Item → List Ruled
  | .rule selector body => [⟨m, next, selector, body⟩]
  | .statement .. => []
  | .descriptors .. => []
  | .group name params body =>
    itemRuled (if isMedia name then some params else m) (next + 2) body

def itemRuled (m : Option String) (next : Nat) : List Item → List Ruled
  | [] => []
  | item :: items => item.ruled m next ++ itemRuled (item.mediaAfter m) (next + item.count) items
end

/-! ## The rules among the visits -/

def Visit.isRule (v : Visit) : Bool := v.node.kind = .rule

theorem Tree.events_owning (next : Nat) (node : Option Nat → Node) (children : List Tree) :
    (Tree.owning next node children).events =
      .enter next (node (some (next + 1))) :: .enter (next + 1) .block ::
        (allEvents children ++ [.leave (next + 1) .block, .leave next (node (some (next + 1)))]) := by
  simp [owning, events, blockEvents, allEvents]

/-- The events of a tree, as far as rules and media are concerned. -/
def Seen (m : Option String) (es : List Event) (rs : List Ruled) (m' : Option String) : Prop :=
  (visits m es).filter Visit.isRule = rs.map Ruled.visit ∧ es.foldl Event.media m = m'

theorem Seen.append {m m' m'' : Option String} {es es' : List Event} {rs rs' : List Ruled}
    (h : Seen m es rs m') (h' : Seen m' es' rs' m'') : Seen m (es ++ es') (rs ++ rs') m'' := by
  refine ⟨?_, ?_⟩
  · rw [visits_append, h.2, List.filter_append, h.1, h'.1, List.map_append]
  · rw [List.foldl_append, h.2, h'.2]

theorem seen_declarationTrees (m : Option String) (next : Nat) (ds : List Declaration) :
    Seen m (allEvents (declarationTrees next ds)) [] m := by
  induction ds generalizing next with
  | nil => exact ⟨rfl, rfl⟩
  | cons d ds ih =>
      have hd : Seen m (Tree.mk next (.declaration d) none []).events [] m := ⟨rfl, rfl⟩
      exact hd.append (ih (next + 1))

theorem media?_or_atRule (name params : String) (b : Option Nat) (m : Option String) :
    (Node.atRule name params b).media?.or m = if isMedia name then some params else m := by
  rw [Node.media?]
  split <;> simp

theorem seen_atRule {m m' : Option String} (next : Nat) {name params : String}
    {children : List Tree} {rs : List Ruled}
    (h : Seen (if isMedia name then some params else m) (allEvents children) rs m') :
    Seen m (Tree.owning next (.atRule name params) children).events rs
      (if isMedia name then none else m') := by
  have henter : Seen m [.enter next (.atRule name params (some (next + 1))), .enter (next + 1) .block]
      [] (if isMedia name then some params else m) := by
    refine ⟨rfl, ?_⟩
    rw [← media?_or_atRule name params (some (next + 1)) m]
    rfl
  have hleave : Seen m' [.leave (next + 1) .block, .leave next (.atRule name params (some (next + 1)))]
      [] (if isMedia name then none else m') := by
    refine ⟨rfl, ?_⟩
    simp only [List.foldl_cons, List.foldl_nil, Event.media, Node.media?]
    by_cases hm : isMedia name = true <;> simp [hm]
  have hall := (henter.append h).append hleave
  rw [List.nil_append, List.append_nil] at hall
  rw [Tree.events_owning]
  exact hall

mutual
theorem Item.seen_tree (m : Option String) (next : Nat) (item : Item) :
    Seen m (item.tree next).events (item.ruled m next) (item.mediaAfter m) := by
  match item with
  | .rule selector body =>
      have henter : Seen m [.enter next (.rule selector (some (next + 1))), .enter (next + 1) .block]
          [⟨m, next, selector, body⟩] m := ⟨rfl, rfl⟩
      have hleave : Seen m [.leave (next + 1) .block, .leave next (.rule selector (some (next + 1)))]
          [] m := ⟨rfl, rfl⟩
      have hall := (henter.append (seen_declarationTrees m (next + 2) body)).append hleave
      rw [Item.tree, Item.ruled, Item.mediaAfter, Tree.events_owning]
      exact hall
  | .statement name params =>
      rw [Item.tree, Item.ruled, Item.mediaAfter]
      refine ⟨rfl, ?_⟩
      simp only [Tree.events, blockEvents, allEvents, List.nil_append, List.foldl_cons, List.foldl_nil,
        Event.media, Node.media?]
      by_cases hm : isMedia name = true <;> simp [hm]
  | .descriptors name params body =>
      have hbody := seen_declarationTrees (if isMedia name then some params else m) (next + 2) body
      have hall := seen_atRule next hbody
      rw [Item.tree, Item.ruled, Item.mediaAfter]
      convert hall using 1
      by_cases hm : isMedia name = true <;> simp [hm]
  | .group name params body =>
      have hall := seen_atRule next
        (seen_itemTrees (if isMedia name then some params else m) (next + 2) body)
      rw [Item.tree, Item.ruled, Item.mediaAfter]
      convert hall using 1
      by_cases hm : isMedia name = true <;> simp [hm]

theorem seen_itemTrees (m : Option String) (next : Nat) (items : List Item) :
    Seen m (allEvents (itemTrees next items)) (itemRuled m next items) (mediaAfterAll m items) := by
  match items with
  | [] =>
      rw [itemTrees, itemRuled, mediaAfterAll]
      exact ⟨rfl, rfl⟩
  | item :: items =>
      rw [itemTrees, allEvents, itemRuled, mediaAfterAll]
      exact (item.seen_tree m next).append (seen_itemTrees _ (next + item.count) items)
end

theorem seen_ofItems (items : List Item) :
    Seen none (Sheet.ofItems items).tree.events (itemRuled none 1 items) (mediaAfterAll none items) := by
  have hevents : (Sheet.ofItems items).tree.events =
      [.enter 0 .stylesheet] ++ allEvents (itemTrees 1 items) ++ [.leave 0 .stylesheet] := by
    rw [tree_ofItems, Tree.events]
    rfl
  have henter : Seen none [.enter 0 .stylesheet] [] none := ⟨rfl, rfl⟩
  have hleave : Seen (mediaAfterAll none items) [.leave 0 .stylesheet] [] (mediaAfterAll none items) :=
    ⟨rfl, rfl⟩
  have hall := (henter.append (seen_itemTrees none 1 items)).append hleave
  rw [List.nil_append, List.append_nil] at hall
  rw [hevents]
  exact hall

/-! ## Folding over the rules -/

section

variable {σ : Type} {f : Option String → Nat → Node → σ → Except ShapeError σ}

theorem foldlM_rules (hf : ∀ m id node acc, node.kind ≠ .rule → f m id node acc = .ok acc)
    (vs : List Visit) (init : σ) :
    vs.foldlM (fun acc v => f v.media v.id v.node acc) init =
      (vs.filter Visit.isRule).foldlM (fun acc v => f v.media v.id v.node acc) init := by
  induction vs generalizing init with
  | nil => rfl
  | cons v vs ih =>
      rw [List.filter_cons, List.foldlM_cons]
      split
      next =>
        rw [List.foldlM_cons]
        exact bind_congr fun acc => ih acc
      next hv =>
        rw [hf v.media v.id v.node init (by simpa [Visit.isRule] using hv)]
        exact ih init

/-- A fold that passes over all nodes but rules goes through the rules of the entries. -/
theorem foldUnderMedia_ofItems (hf : ∀ m id node acc, node.kind ≠ .rule → f m id node acc = .ok acc)
    (items : List Item) (init : σ) :
    (Sheet.ofItems items).foldUnderMedia f init = (itemRuled none 1 items).foldlM
      (fun acc r => f r.media r.id (.rule r.selector (some (r.id + 1))) acc) init := by
  have hvisits := (seen_ofItems items).1
  rw [foldUnderMedia_eq (whole_ofItems items), foldlM_rules hf, hvisits, List.foldlM_map]
  rfl

end

/-! ## What a stylesheet says at a rule -/

namespace Sheet

variable {s : Sheet} {next : Nat} {node : Option Nat → Node} {children : List Tree}

theorem Shows.blockOf_owning (h : s.Shows (.owning next node children)) : s.blockOf next = .ok (next + 1) := by
  cases h with
  | mk hn hb =>
      rw [blockOf, hn]
      simp only [hb, Option.map_some]
      rfl

theorem Shows.children_owning (h : s.Shows (.owning next node children)) :
    s.children (next + 1) = children.map Tree.id ∧ ∀ t ∈ children, s.Shows t := by
  cases h with
  | mk _ _ _ hblock _ =>
      cases hblock _ rfl with
      | mk _ _ hc _ hchildren => exact ⟨hc, hchildren⟩

end Sheet

mutual
theorem Item.shows_ruled {s : Sheet} (m : Option String) (next : Nat) (item : Item)
    (h : s.Shows (item.tree next)) : ∀ r ∈ item.ruled m next, s.Shows r.tree := by
  match item with
  | .rule selector body =>
      rw [Item.ruled]
      rw [Item.tree] at h
      intro r hr
      cases List.mem_singleton.1 hr
      exact h
  | .statement .. =>
      rw [Item.ruled]
      intro r hr
      cases hr
  | .descriptors .. =>
      rw [Item.ruled]
      intro r hr
      cases hr
  | .group name params body =>
      rw [Item.ruled]
      rw [Item.tree] at h
      exact shows_itemRuled _ (next + 2) body h.children_owning.2

theorem shows_itemRuled {s : Sheet} (m : Option String) (next : Nat) (items : List Item)
    (h : ∀ t ∈ itemTrees next items, s.Shows t) : ∀ r ∈ itemRuled m next items, s.Shows r.tree := by
  match items with
  | [] =>
      rw [itemRuled]
      intro r hr
      cases hr
  | item :: items =>
      rw [itemTrees] at h
      rw [itemRuled]
      intro r hr
      rcases List.mem_append.1 hr with hr | hr
      · exact item.shows_ruled m next (h _ List.mem_cons_self) r hr
      · exact shows_itemRuled _ _ items (fun t ht => h t (List.mem_cons_of_mem _ ht)) r hr
end

theorem shows_ruled_ofItems {items : List Item} :
    ∀ r ∈ itemRuled none 1 items, (Sheet.ofItems items).Shows r.tree := by
  have hall := (Sheet.ofItems items).shows_tree
  rw [tree_ofItems] at hall
  cases hall with
  | mk _ _ _ _ hchildren => exact shows_itemRuled none 1 items hchildren

namespace Sheet

variable {s : Sheet} {r : Ruled}

theorem Shows.blockOf_rule (h : s.Shows r.tree) : s.blockOf r.id = .ok (r.id + 1) := h.blockOf_owning

theorem Shows.children_rule (h : s.Shows r.tree) :
    s.children (r.id + 1) = (declarationTrees (r.id + 2) r.body).map Tree.id ∧
      ∀ t ∈ declarationTrees (r.id + 2) r.body, s.Shows t := h.children_owning

/-- The declarations of a rule are those of its block. -/
theorem Shows.declarations_rule (h : s.Shows r.tree) : s.declarations (r.id + 1) = r.body := by
  obtain ⟨hids, hchildren⟩ := h.children_rule
  rw [declarations, hids]
  clear hids h
  generalize r.id + 2 = next at hchildren
  generalize r.body = ds at hchildren ⊢
  induction ds generalizing next with
  | nil => rfl
  | cons d ds ih =>
      have hn : s.node? next = some (.declaration d) := by
        cases hchildren _ List.mem_cons_self with
        | mk hn => exact hn
      rw [declarationTrees, List.map_cons, List.filterMap_cons]
      simp only [Tree.id, hn]
      rw [ih (next + 1) fun t ht => hchildren t (List.mem_cons_of_mem _ ht)]

end Sheet
end TieredStyle.Css
