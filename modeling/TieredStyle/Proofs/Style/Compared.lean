import TieredStyle.Proofs.Style.Difference

/-!
# Differences seen from both sides

Exchanging two styles exchanges what is added and what is removed between them and turns each change round.
Where nothing is listed the styles have the same values, and a comparison at the addresses of either style
misses no value.
-/
namespace TieredStyle

/-- The same change from the other side. -/
def Change.swap (c : Change) : Change := ⟨c.new, c.old⟩

namespace Diff

variable {α β : Type}

/-! ## Addresses from both sides -/

/-- The addresses at which a map has entries. -/
def addresses (m : OrderedMap (OrderedMap α)) : List (String × String) :=
  m.entries.flatMap fun (bp, states) => states.keys.map (bp, ·)

/-- Whether two maps have the same tiers, with states or without, and the same addresses. -/
structure SameAddresses (m : OrderedMap (OrderedMap α)) (n : OrderedMap (OrderedMap β)) : Prop where
  tiers : m.keys.Perm n.keys
  addresses : (addresses m).Perm (addresses n)

theorem mem_addresses {m : OrderedMap (OrderedMap α)} {bp ps : String} :
    (bp, ps) ∈ addresses m ↔ ∃ a, at? m bp ps = some a := by
  simp only [addresses, List.mem_flatMap, List.mem_map, Prod.mk.injEq, Prod.exists, at?,
    Option.bind_eq_some_iff, OrderedMap.get?_eq_some_iff, OrderedMap.mem_keys_iff]
  constructor
  · rintro ⟨_, states, hmem, _, ⟨a, ha⟩, rfl, rfl⟩
    exact ⟨a, states, hmem, ha⟩
  · rintro ⟨a, states, hmem, ha⟩
    exact ⟨bp, states, hmem, ps, ⟨a, ha⟩, rfl, rfl⟩

theorem nodup_addresses (m : OrderedMap (OrderedMap α)) : (addresses m).Nodup := by
  refine List.nodup_flatMap.2 ⟨fun e _ => ?_, ?_⟩
  · exact e.2.nodup_keys.map fun _ _ heq => (Prod.mk.inj heq).2
  · have htiers : m.entries.Pairwise fun e e' => e.1 ≠ e'.1 := List.pairwise_map.1 m.nodup_keys
    refine htiers.imp fun {e e'} hne => ?_
    rintro ⟨bp, ps⟩ hmem hmem'
    obtain ⟨_, _, heq⟩ := List.mem_map.1 hmem
    obtain ⟨_, _, heq'⟩ := List.mem_map.1 hmem'
    exact hne ((congrArg Prod.fst heq).trans (congrArg Prod.fst heq').symm)

theorem looksAt_comm (a b : Style) (bp ps : String) :
    looksAt .union a b bp ps = looksAt .union b a bp ps :=
  Bool.or_comm ..

/-- Either style may be the base: a union looks at the same addresses. -/
theorem sameAddresses_tabulate (a b : Style) (f : Properties → Properties → α)
    (g : Properties → Properties → β) : SameAddresses (tabulate .union a b f) (tabulate .union b a g) where
  tiers := by
    refine (List.perm_ext_iff_of_nodup (OrderedMap.nodup_keys _) (OrderedMap.nodup_keys _)).2 fun bp => ?_
    change bp ∈ (tabulate .union a b f).keys ↔ bp ∈ (tabulate .union b a g).keys
    simp only [tabulate, OrderedMap.keys_tabulate, List.mem_eraseDups, breakpoints, List.mem_append, or_comm]
  addresses := by
    refine (List.perm_ext_iff_of_nodup (nodup_addresses _) (nodup_addresses _)).2 ?_
    rintro ⟨bp, ps⟩
    simp only [mem_addresses, at?_tabulate, looksAt_comm a b, Option.ite_none_right_eq_some, exists_and_left,
      Option.some.injEq, exists_eq']

/-! ## Entries from both sides -/

theorem addedIn_eq_removedIn (a b : Properties) : addedIn a b = removedIn b a := rfl

theorem changedIn_swap (a b : Properties) :
    ((changedIn a b).entries.map (Prod.map id Change.swap)).Perm (changedIn b a).entries := by
  have hmap : (changedIn a b).entries.map (Prod.map id Change.swap) =
      ((changedIn a b).filterMap fun _ c => some c.swap).entries :=
    (congrFun List.filterMap_eq_map _).symm
  rw [hmap]
  apply OrderedMap.perm_of_get?
  intro p
  ext c
  simp only [OrderedMap.get?_filterMap, Option.bind_eq_some_iff, Option.some.injEq,
    get?_changedIn_eq_some_iff]
  constructor
  · rintro ⟨c, ⟨hold, hnew, hne⟩, rfl⟩
    exact ⟨hnew, hold, hne.symm⟩
  · rintro ⟨hold, hnew, hne⟩
    exact ⟨c.swap, ⟨hnew, hold, hne.symm⟩, rfl⟩

/-- Two differences that tell the same, each with the other's base. -/
structure Mirrors (d e : Diff) : Prop where
  addresses_added : SameAddresses d.added e.added
  addresses_removed : SameAddresses d.removed e.removed
  addresses_changed : SameAddresses d.changed e.changed
  added : ∀ bp ps, at? d.added bp ps = at? e.removed bp ps
  removed : ∀ bp ps, at? d.removed bp ps = at? e.added bp ps
  /-- The changes the other way round, in whichever order. -/
  changed : ∀ bp ps, Option.Rel (fun c c' => (c.entries.map (Prod.map id Change.swap)).Perm c'.entries)
    (at? d.changed bp ps) (at? e.changed bp ps)

/-- The differences between two styles mirror each other. -/
theorem mirrors_between (a b : Style) : Mirrors (between .union a b) (between .union b a) where
  addresses_added := sameAddresses_tabulate a b _ _
  addresses_removed := sameAddresses_tabulate a b _ _
  addresses_changed := sameAddresses_tabulate a b _ _
  added bp ps := by simp only [between, at?_tabulate, looksAt_comm a b, addedIn_eq_removedIn]
  removed bp ps := by simp only [between, at?_tabulate, looksAt_comm a b, addedIn_eq_removedIn]
  changed bp ps := by
    simp only [between, at?_tabulate, looksAt_comm a b]
    split
    next => exact .some (changedIn_swap _ _)
    next => exact .none

/-! ## Differences in which nothing is listed -/

theorem all_values_iff {m : OrderedMap (OrderedMap (OrderedMap α))} :
    m.values.all (·.values.all (·.isEmpty)) ↔ ∀ bp ps a, at? m bp ps = some a → ∀ p, p ∉ a.keys := by
  simp only [List.all_eq_true]
  constructor
  · intro h bp ps a hat p
    obtain ⟨states, hstates, ha⟩ := Option.bind_eq_some_iff.1 hat
    have hmem : states ∈ m.values := List.mem_map_of_mem (OrderedMap.get?_eq_some_iff.1 hstates)
    have hempty := h states hmem a (List.mem_map_of_mem (OrderedMap.get?_eq_some_iff.1 ha))
    simp [OrderedMap.keys, List.isEmpty_iff.1 hempty]
  · intro h states hstates a ha
    obtain ⟨bp, ps, hat⟩ := exists_at?_of_mem_values hstates ha
    exact List.isEmpty_iff.2 (List.map_eq_nil_iff.1 (List.eq_nil_iff_forall_not_mem.2 (h bp ps a hat)))

theorem isEmpty_between_iff {scope : DiffScope} {a b : Style} : (between scope a b).isEmpty ↔
    ∀ bp ps, looksAt scope a b bp ps → ∀ p, a.get? bp ps p = b.get? bp ps p := by
  simp only [isEmpty, Bool.and_eq_true, all_values_iff, between, at?_tabulate,
    Option.ite_none_right_eq_some, Option.some.injEq]
  constructor
  · rintro ⟨⟨hadded, hremoved⟩, hchanged⟩ bp ps hlooks p
    by_contra hne
    rcases ((tells_between (a.lookup bp ps) (b.lookup bp ps)).listed p).2 hne with hp | hp | hp
    · exact hadded bp ps _ ⟨hlooks, rfl⟩ p hp
    · exact hremoved bp ps _ ⟨hlooks, rfl⟩ p hp
    · exact hchanged bp ps _ ⟨hlooks, rfl⟩ p hp
  · intro h
    have hnone : ∀ bp ps, looksAt scope a b bp ps → ∀ p, ¬(p ∈ (addedIn (a.lookup bp ps) (b.lookup bp ps)).keys ∨
        p ∈ (removedIn (a.lookup bp ps) (b.lookup bp ps)).keys ∨
        p ∈ (changedIn (a.lookup bp ps) (b.lookup bp ps)).keys) := fun bp ps hlooks p hp =>
      ((tells_between _ _).listed p).1 hp (h bp ps hlooks p)
    refine ⟨⟨?_, ?_⟩, ?_⟩
    · rintro bp ps _ ⟨hlooks, rfl⟩ p hp
      exact hnone bp ps hlooks p (.inl hp)
    · rintro bp ps _ ⟨hlooks, rfl⟩ p hp
      exact hnone bp ps hlooks p (.inr (.inl hp))
    · rintro bp ps _ ⟨hlooks, rfl⟩ p hp
      exact hnone bp ps hlooks p (.inr (.inr hp))

/-- A difference is empty if and only if the styles have the same values: all of them if it looks at the
addresses of either style, those at the addresses of the base if it looks at no other. -/
theorem isEmpty_between (a b : Style) :
    ((between .union a b).isEmpty ↔ ∀ bp ps p, a.get? bp ps p = b.get? bp ps p) ∧
      ((between .base a b).isEmpty ↔ ∀ bp ps, a.has bp ps → ∀ p, a.get? bp ps p = b.get? bp ps p) := by
  refine ⟨isEmpty_between_iff.trans ⟨fun h bp ps p => ?_, fun h bp ps _ p => h bp ps p⟩, isEmpty_between_iff⟩
  by_cases hlooks : looksAt .union a b bp ps
  · exact h bp ps hlooks p
  -- where neither style has an address there is no value on either side
  · simp only [looksAt, Bool.or_eq_true, not_or, Bool.not_eq_true] at hlooks
    rw [Style.get?, Style.get?, lookup_of_not_has hlooks.1, lookup_of_not_has hlooks.2]

end Diff
end TieredStyle
