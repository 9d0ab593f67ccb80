import Mathlib.Data.List.Nodup
import TieredStyle.OrderedMap.Lemmas
import TieredStyle.Style.Decoding
import TieredStyle.Style.Merge

/-!
# Addresses of layers

Putting properties over an address changes that address alone, and putting them over an address without
properties makes them what it has.
-/
namespace TieredStyle

namespace Style

/-- The properties at an address that the layers have. -/
def at? (layers : Layers) (bp ps : String) : Option Properties := (layers.get? bp).bind (·.get? ps)

theorem lookup_eq (s : Style) (bp ps : String) : s.lookup bp ps = (at? s.layers bp ps).getD ∅ := rfl

theorem at?_overlayAt (layers : Layers) (bp ps bp' ps' : String) (es : List (String × String)) :
    at? (overlayAt layers bp ps es) bp' ps' =
      if bp' = bp ∧ ps' = ps then (at? layers bp ps).map (·.insertMany es) else at? layers bp' ps' := by
  rw [at?, overlayAt, OrderedMap.get?_modify]
  by_cases hb : bp' = bp
  · subst hb
    rw [if_pos rfl]
    cases hl : layers.get? bp' with
    | none => simp [at?, hl]
    | some states =>
        simp only [Option.map_some, Option.bind_some, OrderedMap.get?_modify, at?, hl, true_and]
  · simp only [hb, ↓reduceIte, false_and, at?]

section

variable {α : Type} {bp ps : α → String} {es : α → List (String × String)} {xs : List α}

/-- Putting properties over some addresses changes no other one. -/
theorem at?_foldl_of_notMem {layers : Layers} {b p : String} (h : (b, p) ∉ xs.map fun x => (bp x, ps x)) :
    at? (xs.foldl (fun layers x => overlayAt layers (bp x) (ps x) (es x)) layers) b p = at? layers b p := by
  induction xs generalizing layers with
  | nil => rfl
  | cons x xs ih =>
      simp only [List.map_cons, List.mem_cons, not_or] at h
      rw [List.foldl_cons, ih h.2, at?_overlayAt, if_neg]
      rintro ⟨rfl, rfl⟩
      exact h.1 rfl

/-- Properties that are put over different addresses do not meet. -/
theorem at?_foldl_of_mem {layers : Layers} (hnodup : (xs.map fun x => (bp x, ps x)).Nodup) {x : α}
    (h : x ∈ xs) :
    at? (xs.foldl (fun layers x => overlayAt layers (bp x) (ps x) (es x)) layers) (bp x) (ps x) =
      (at? layers (bp x) (ps x)).map (·.insertMany (es x)) := by
  induction xs generalizing layers with
  | nil => cases h
  | cons x' xs ih =>
      rw [List.map_cons, List.nodup_cons] at hnodup
      rw [List.foldl_cons]
      rcases List.mem_cons.1 h with rfl | h
      · rw [at?_foldl_of_notMem hnodup.1, at?_overlayAt, if_pos ⟨rfl, rfl⟩]
      · rw [ih hnodup.2 h, at?_overlayAt, if_neg]
        rintro ⟨hb, hp⟩
        refine hnodup.1 (List.mem_map.2 ⟨x, h, ?_⟩)
        rw [hb, hp]

end

/-- Properties at an address. -/
structure Entry where
  breakpoint : String
  state : String
  properties : Properties

def Entry.address (e : Entry) : String × String := (e.breakpoint, e.state)

/-- Puts properties over those at their addresses, one after the other. -/
def overlayAll (layers : Layers) (es : List Entry) : Layers :=
  es.foldl (fun layers e => overlayAt layers e.breakpoint e.state e.properties.entries) layers

theorem at?_overlayAll_of_notMem {layers : Layers} {es : List Entry} {bp ps : String}
    (h : (bp, ps) ∉ es.map Entry.address) : at? (overlayAll layers es) bp ps = at? layers bp ps :=
  at?_foldl_of_notMem h

theorem at?_overlayAll_of_mem {layers : Layers} {es : List Entry} (hnodup : (es.map Entry.address).Nodup)
    {e : Entry} (h : e ∈ es) : at? (overlayAll layers es) e.breakpoint e.state =
      (at? layers e.breakpoint e.state).map (·.insertMany e.properties.entries) :=
  at?_foldl_of_mem hnodup h

/-! ## The entries of a style -/

/-- The entries of a tier: its states with properties. -/
def entriesOf (bp : String) (states : States) : List Entry :=
  (states.entries.filter (!·.2.isEmpty)).map fun e => ⟨bp, e.1, e.2⟩

/-- The addresses of a style with properties, in order. -/
def entries (s : Style) : List Entry := s.layers.entries.flatMap fun tier => entriesOf tier.1 tier.2

theorem mem_entries {s : Style} {e : Entry} : e ∈ s.entries ↔
    at? s.layers e.breakpoint e.state = some e.properties ∧ e.properties.isEmpty = false := by
  obtain ⟨bp, ps, properties⟩ := e
  simp only [entries, entriesOf, List.mem_flatMap, List.mem_map, List.mem_filter, at?,
    Option.bind_eq_some_iff,
    OrderedMap.get?_eq_some_iff, Prod.exists, Entry.mk.injEq, Bool.not_eq_true']
  constructor
  · rintro ⟨_, states, hstates, _, _, ⟨hmem, hne⟩, rfl, rfl, rfl⟩
    exact ⟨⟨states, hstates, hmem⟩, hne⟩
  · rintro ⟨⟨states, hstates, hmem⟩, hne⟩
    exact ⟨bp, states, hstates, ps, properties, ⟨hmem, hne⟩, rfl, rfl, rfl⟩

/-- Where an entry of a style comes from. -/
theorem exists_of_mem_entries {s : Style} {e : Entry} (h : e ∈ s.entries) :
    e.breakpoint ∈ s.layers.keys ∧ e.properties ∈ s.addressed ∧
      ∃ states ∈ s.layers.values, e.state ∈ states.keys := by
  obtain ⟨tier, htier, he⟩ := List.mem_flatMap.1 h
  obtain ⟨x, hx, rfl⟩ := List.mem_map.1 he
  have hmem := (List.mem_filter.1 hx).1
  have hstates : tier.2 ∈ s.layers.values := List.mem_map_of_mem htier
  exact ⟨List.mem_map_of_mem htier, List.mem_flatMap.2 ⟨tier.2, hstates, List.mem_map_of_mem hmem⟩,
    tier.2, hstates, List.mem_map_of_mem hmem⟩

theorem nodup_entries (s : Style) : (s.entries.map Entry.address).Nodup := by
  have hkeys : ∀ es : List (String × Properties), (es.map Prod.fst).Nodup →
      ((es.filter (!·.2.isEmpty)).map Prod.fst).Nodup :=
    fun es h => h.sublist (List.filter_sublist.map _)
  rw [entries, List.map_flatMap, List.nodup_flatMap]
  constructor
  · rintro ⟨bp, states⟩ _
    have hstates := hkeys states.entries states.nodup_keys
    rw [entriesOf, List.map_map]
    have haddress : (Entry.address ∘ fun e : String × Properties => ⟨bp, e.1, e.2⟩) =
        Prod.mk bp ∘ Prod.fst := rfl
    rw [haddress, ← List.map_map]
    exact hstates.map fun _ _ h => (Prod.mk.inj h).2
  · have htiers := s.layers.nodup_keys
    rw [List.Nodup, List.pairwise_map] at htiers
    refine htiers.imp fun {tier tier'} hne => ?_
    intro address h h'
    simp only [entriesOf, List.map_map, List.mem_map] at h h'
    obtain ⟨_, _, rfl⟩ := h
    obtain ⟨_, _, h'⟩ := h'
    exact hne (Prod.mk.inj h').1.symm

/-- What a style has at an address comes through its entries. -/
theorem at?_overlayAll (layers : Layers) (s : Style) (bp ps : String) :
    at? (overlayAll layers s.entries) bp ps =
      (at? layers bp ps).map (·.insertMany (s.lookup bp ps).entries) := by
  by_cases hmem : (bp, ps) ∈ s.entries.map Entry.address
  · obtain ⟨e, he, haddress⟩ := List.mem_map.1 hmem
    obtain ⟨rfl, rfl⟩ := Prod.mk.inj haddress
    rw [at?_overlayAll_of_mem s.nodup_entries he, lookup_eq, (mem_entries.1 he).1, Option.getD_some]
  · have hnil : (s.lookup bp ps).entries = [] := by
      rw [lookup_eq]
      cases hat : at? s.layers bp ps with
      | none => rfl
      | some properties =>
          cases he : properties.isEmpty with
          | true => exact List.isEmpty_iff.1 he
          | false => exact absurd (List.mem_map.2 ⟨⟨bp, ps, properties⟩, mem_entries.2 ⟨hat, he⟩, rfl⟩) hmem
    rw [at?_overlayAll_of_notMem hmem, hnil]
    exact Option.map_id'.symm

end Style
end TieredStyle
