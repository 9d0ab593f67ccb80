import Mathlib.Data.Finset.Card
import TieredStyle.Proofs.Style.Combined

/-!
# The history of a style

Of the values that are set at a place the last one counts. Tiers, the states of a tier and the properties of a
state stand in the order in which they were made, those of the layout at the start before all others.
-/
namespace TieredStyle

/-- A value that is set: in place, on the way of building a style or on a copy, which comes to the same. -/
structure Write where
  breakpoint : String
  state : String
  property : String
  value : String

/-- The place at which the value is set. -/
def Write.place (w : Write) : String × String × String := (w.breakpoint, w.state, w.property)

namespace Style

def write (s : Style) (w : Write) : Style := s.set w.breakpoint w.state w.property w.value

/-- The style after a history of writes. -/
def writeAll (s : Style) (ws : List Write) : Style := ws.foldl write s

/-- A style that has just been made: without any address, or with those of a layout. -/
inductive Fresh (id name : String) : Layout → Style → Prop
  | new : Fresh id name ⟨[], []⟩ { id, name }
  | ofLayout (l : Layout) : Fresh id name l (Style.ofLayout id name l)

/-- The states of a tier, in order. -/
def statesIn (s : Style) (bp : String) : List String := ((s.layers.get? bp).getD ∅).keys

/-! ## One write -/

section

variable (s : Style) (bp ps p v : String)

theorem at?_set (bp' ps' : String) : at? (s.set bp ps p v).layers bp' ps' =
    if bp' = bp ∧ ps' = ps then some ((s.lookup bp ps).insert p v) else at? s.layers bp' ps' := by
  by_cases hbp : bp' = bp
  · subst hbp
    simp only [at?, set, OrderedMap.get?_alter, ↓reduceIte, Option.bind_some, true_and, lookup]
    cases s.layers.get? bp' <;> rfl
  · simp [at?, set, OrderedMap.get?_alter, hbp]

theorem lookup_set (bp' ps' : String) : (s.set bp ps p v).lookup bp' ps' =
    if bp' = bp ∧ ps' = ps then (s.lookup bp ps).insert p v else s.lookup bp' ps' := by
  simp only [lookup_eq, at?_set]
  split <;> rfl

theorem get?_set (bp' ps' p' : String) : (s.set bp ps p v).get? bp' ps' p' =
    if (bp, ps, p) = (bp', ps', p') then some v else s.get? bp' ps' p' := by
  simp only [get?, lookup_set, Prod.mk.injEq]
  by_cases haddress : bp' = bp ∧ ps' = ps
  · obtain ⟨rfl, rfl⟩ := haddress
    simp [OrderedMap.get?_insert, eq_comm]
  · have hne : ¬(bp = bp' ∧ ps = ps' ∧ p = p') := fun h => haddress ⟨h.1.symm, h.2.1.symm⟩
    simp [haddress, hne]

theorem statesIn_set (bp' : String) : (s.set bp ps p v).statesIn bp' =
    if bp' = bp ∧ ps ∉ s.statesIn bp then s.statesIn bp ++ [ps] else s.statesIn bp' := by
  by_cases hbp : bp' = bp
  · subst hbp
    simp only [statesIn, set, OrderedMap.get?_alter, ↓reduceIte, Option.getD_some, OrderedMap.keys_alter,
      true_and]
    split <;> simp_all
  · simp [statesIn, set, OrderedMap.get?_alter, hbp]

end

/-! ## The run of a history -/

/-- What a style has after a history that started with the addresses of a layout. -/
structure Records (l : Layout) (ws : List Write) (s : Style) : Prop where
  get? : ∀ bp ps p, s.get? bp ps p = (ws.reverse.find? (·.place = (bp, ps, p))).map Write.value
  breakpoints : s.layers.keys = (l.breakpoints ++ ws.map Write.breakpoint).eraseDups
  states : ∀ bp, s.statesIn bp = ((if bp ∈ l.breakpoints then l.states else []) ++
    (ws.filter (·.breakpoint = bp)).map Write.state).eraseDups
  properties : ∀ bp ps, (s.lookup bp ps).keys =
    ((ws.filter fun w => w.breakpoint = bp ∧ w.state = ps).map Write.property).eraseDups

/-- One more element goes to the end unless it is there already. -/
theorem eraseDups_concat (l : List String) (a : String) :
    (l ++ [a]).eraseDups = if a ∈ l.eraseDups then l.eraseDups else l.eraseDups ++ [a] := by
  rw [List.eraseDups_append]
  by_cases ha : a ∈ l
  · simp [ha, List.removeAll]
  · simp [ha, List.removeAll, List.eraseDups_cons]

theorem Fresh.records {id name : String} {l : Layout} {s : Style} (h : Fresh id name l s) :
    Records l [] s := by
  cases h with
  | new => exact ⟨fun _ _ _ => rfl, rfl, fun _ => rfl, fun _ _ => rfl⟩
  | ofLayout l =>
      have hlookup : ∀ bp ps, (Style.ofLayout id name l).lookup bp ps = ∅ := by
        intro bp ps
        simp only [lookup_eq, Style.ofLayout, at?_layers]
        split <;> rfl
      refine ⟨fun bp ps p => ?_, ?_, fun bp => ?_, fun bp ps => ?_⟩
      · simp [Style.get?, hlookup]
      · simp [Style.ofLayout, Layout.layers, OrderedMap.keys_tabulate]
      · simp only [statesIn, Style.ofLayout, Layout.layers, OrderedMap.get?_tabulate]
        split <;> simp [OrderedMap.keys_tabulate]
      · simp [hlookup]

/-- A write touches one place, and what it makes comes last. -/
theorem Records.write {l : Layout} {ws : List Write} {s : Style} (h : Records l ws s) (w : Write) :
    Records l (ws ++ [w]) (s.write w) where
  get? bp ps p := by
    have hcell : (s.write w).get? bp ps p = if w.place = (bp, ps, p) then some w.value else s.get? bp ps p :=
      get?_set ..
    by_cases hplace : w.place = (bp, ps, p)
    · simp [hcell, hplace]
    · simp [hcell, hplace, h.get?]
  breakpoints := by
    have hkeys : (s.write w).layers.keys =
        if w.breakpoint ∈ s.layers.keys then s.layers.keys else s.layers.keys ++ [w.breakpoint] :=
      OrderedMap.keys_alter ..
    rw [hkeys, h.breakpoints, List.map_append, ← List.append_assoc]
    exact (eraseDups_concat _ _).symm
  states bp := by
    rw [Style.write, statesIn_set, List.filter_append, List.map_append, ← List.append_assoc]
    by_cases hbp : bp = w.breakpoint
    · subst hbp
      have hconcat := eraseDups_concat ((if w.breakpoint ∈ l.breakpoints then l.states else []) ++
        (ws.filter (·.breakpoint = w.breakpoint)).map Write.state) w.state
      rw [← h.states] at hconcat
      simp only [true_and, decide_true, List.filter_cons_of_pos, List.filter_nil, List.map_cons,
        List.map_nil, hconcat]
      split <;> simp_all
    · have hne : w.breakpoint ≠ bp := Ne.symm hbp
      simp [hbp, hne, h.states]
  properties bp ps := by
    rw [Style.write, lookup_set, List.filter_append, List.map_append]
    by_cases haddress : bp = w.breakpoint ∧ ps = w.state
    · obtain ⟨rfl, rfl⟩ := haddress
      have hconcat := eraseDups_concat ((ws.filter fun x => x.breakpoint = w.breakpoint ∧
        x.state = w.state).map Write.property) w.property
      rw [← h.properties] at hconcat
      rw [if_pos ⟨rfl, rfl⟩, OrderedMap.keys_insert, List.filter_cons_of_pos (by simp)]
      exact hconcat.symm
    · have hne : ¬(w.breakpoint = bp ∧ w.state = ps) := fun h => haddress ⟨h.1.symm, h.2.symm⟩
      simp [haddress, hne, h.properties]

theorem Records.writeAll {l : Layout} {ws : List Write} {s : Style} (h : Records l ws s)
    (ws' : List Write) : Records l (ws ++ ws') (s.writeAll ws') := by
  induction ws' generalizing ws s with
  | nil => simpa [Style.writeAll] using h
  | cons w ws' ih => simpa [Style.writeAll] using ih (h.write w)

/-! ## How many places have a value -/

/-- The places with a value at the address of an entry. -/
def Entry.places (e : Entry) : List (String × String × String) :=
  e.properties.keys.map fun p => (e.breakpoint, e.state, p)

/-- The places with a value. -/
def places (s : Style) : List (String × String × String) := s.entries.flatMap Entry.places

theorem mem_places {s : Style} {bp ps p : String} :
    (bp, ps, p) ∈ s.places ↔ (s.get? bp ps p).isSome = true := by
  have hmem : (bp, ps, p) ∈ s.places ↔ ∃ e ∈ s.entries, p ∈ e.properties.keys ∧ e.address = (bp, ps) := by
    simp only [places, Entry.places, List.mem_flatMap, List.mem_map, Prod.mk.injEq, Entry.address]
    constructor
    · rintro ⟨e, he, _, hp, rfl, rfl, rfl⟩
      exact ⟨e, he, hp, rfl, rfl⟩
    · rintro ⟨e, he, hp, rfl, rfl⟩
      exact ⟨e, he, p, hp, rfl, rfl, rfl⟩
  rw [hmem, Option.isSome_iff_exists, get?, ← OrderedMap.mem_keys_iff, lookup_eq]
  constructor
  · rintro ⟨e, he, hp, haddress⟩
    obtain ⟨rfl, rfl⟩ := Prod.mk.inj haddress
    rw [(mem_entries.1 he).1]
    exact hp
  · intro hp
    cases hat : at? s.layers bp ps with
    | none => simp [hat] at hp
    | some properties =>
        rw [hat, Option.getD_some] at hp
        refine ⟨⟨bp, ps, properties⟩, mem_entries.2 ⟨hat, ?_⟩, hp, rfl⟩
        rw [OrderedMap.isEmpty, List.isEmpty_eq_false_iff]
        exact List.ne_nil_of_mem (List.mem_map.1 hp).choose_spec.1

theorem nodup_places (s : Style) : s.places.Nodup := by
  rw [places, List.nodup_flatMap]
  constructor
  · intro e _
    exact e.properties.nodup_keys.map fun p p' h => by simpa using h
  · apply (List.pairwise_map.1 s.nodup_entries).imp
    intro e e' hne place h h'
    simp only [Entry.places, List.mem_map] at h h'
    obtain ⟨p, _, rfl⟩ := h
    obtain ⟨p', _, heq⟩ := h'
    apply hne
    simp_all [Entry.address]

theorem length_places_entriesOf (bp : String) (states : States) (n : Nat) :
    ((entriesOf bp states).flatMap Entry.places).length + n = states.values.foldr (·.size + ·) n := by
  simp only [entriesOf, OrderedMap.values]
  induction states.entries with
  | nil => simp
  | cons e es ih =>
      rw [List.filter_cons, List.map_cons, List.foldr_cons, ← ih]
      split
      next => simp [Entry.places, OrderedMap.keys, OrderedMap.size, Nat.add_assoc]
      next hempty =>
        have hsize : e.2.size = 0 := by simpa [OrderedMap.isEmpty, OrderedMap.size] using hempty
        rw [hsize, Nat.zero_add]

theorem length_places (s : Style) : s.places.length = s.propertyCount := by
  rw [places, entries, propertyCount, addressed, OrderedMap.values]
  induction s.layers.entries with
  | nil => rfl
  | cons tier tiers ih =>
      rw [List.flatMap_cons, List.flatMap_append, List.length_append, ih, length_places_entriesOf,
        List.map_cons, List.flatMap_cons, List.foldr_append]

theorem Records.propertyCount {l : Layout} {ws : List Write} {s : Style} (h : Records l ws s) :
    s.propertyCount = (ws.map Write.place).toFinset.card := by
  rw [← length_places, ← List.toFinset_card_of_nodup s.nodup_places]
  congr 1
  ext ⟨bp, ps, p⟩
  simp only [List.mem_toFinset, mem_places, h.get?, Option.isSome_map, List.find?_isSome, List.mem_reverse,
    decide_eq_true_eq, List.mem_map]

theorem isEmpty_iff_propertyCount (s : Style) : s.isEmpty = true ↔ s.propertyCount = 0 := by
  rw [isEmpty, Style.propertyCount]
  induction s.addressed with
  | nil => simp
  | cons properties rest ih =>
      have hempty : properties.isEmpty = true ↔ properties.size = 0 := by
        simp [OrderedMap.isEmpty, OrderedMap.size]
      rw [List.all_cons, List.foldr_cons, Bool.and_eq_true, Nat.add_eq_zero_iff, ih, hempty]

/-- After any history the last value of a place counts, everything stands where it first came, and the number
of properties is that of the places that were written. Nothing else about the style has changed. -/
theorem records_writeAll {id name : String} {l : Layout} {s : Style} (h : Fresh id name l s)
    (ws : List Write) :
    Records l ws (s.writeAll ws) ∧
      (s.writeAll ws).propertyCount = (ws.map Write.place).toFinset.card ∧
      ((s.writeAll ws).isEmpty = true ↔ (s.writeAll ws).propertyCount = 0) ∧
      (s.writeAll ws).id = id ∧ (s.writeAll ws).name = name ∧ (s.writeAll ws).version = 0 := by
  have hrecords : Records l ws (s.writeAll ws) := h.records.writeAll ws
  refine ⟨hrecords, hrecords.propertyCount, isEmpty_iff_propertyCount _, ?_⟩
  refine List.foldlRecOn (motive := fun t : Style => t.id = id ∧ t.name = name ∧ t.version = 0) _ _ ?_ ?_
  · cases h <;> exact ⟨rfl, rfl, rfl⟩
  · intro t ht w _
    exact ht

/-- A value is overwritten where it stands, a new state and a new tier come after those of the layout. -/
theorem records_writeAll_layout :
    ∃ s, s = (Style.ofLayout "a" "b" ⟨["default", "md"], ["default"]⟩).writeAll
      [⟨"md", "hover", "color", "red"⟩, ⟨"xl", "default", "color", "blue"⟩, ⟨"md", "hover", "color", "green"⟩] ∧
      s.get? "md" "hover" "color" = some "green" ∧ s.get? "default" "default" "color" = none ∧
      s.layers.keys = ["default", "md", "xl"] ∧ s.statesIn "md" = ["default", "hover"] ∧
      s.propertyCount = 2 ∧ s.isEmpty ≠ true := by
  have hfresh : Fresh "a" "b" ⟨["default", "md"], ["default"]⟩
      (Style.ofLayout "a" "b" ⟨["default", "md"], ["default"]⟩) := .ofLayout _
  obtain ⟨hrecords, hcount, hempty, -⟩ := records_writeAll hfresh
    [⟨"md", "hover", "color", "red"⟩, ⟨"xl", "default", "color", "blue"⟩, ⟨"md", "hover", "color", "green"⟩]
  have htwo := hcount.trans (show _ = 2 by decide)
  refine ⟨_, rfl, ?_, ?_, ?_, ?_, htwo, ?_⟩
  · simp [hrecords.get?, Write.place]
  · simp [hrecords.get?, Write.place]
  · simp [hrecords.breakpoints, List.eraseDups_cons]
  · simp [hrecords.states, List.eraseDups_cons]
  · simp [hempty, htwo]

end Style
end TieredStyle
