import TieredStyle.Proofs.OrderedMap.Inserted
import TieredStyle.Proofs.Style.Layers
import TieredStyle.Style.Diff

/-!
# What a difference tells

A difference has an entry at each address that has been looked at, and at no other. The entry tells how to
make one map of properties from the other, and it lists no property that has the same value in both.
-/
namespace TieredStyle

/-- Whether a style has an address. -/
def Style.has (s : Style) (bp ps : String) : Bool := (Style.at? s.layers bp ps).isSome

namespace Diff

/-! ## Addresses -/

/-- What stands at an address. -/
def at? {α : Type} (m : OrderedMap (OrderedMap α)) (bp ps : String) : Option α :=
  (m.get? bp).bind (·.get? ps)

/-- Whether a comparison looks at an address. -/
def looksAt (scope : DiffScope) (base compare : Style) (bp ps : String) : Bool :=
  match scope with
  | .base => base.has bp ps
  | .union => base.has bp ps || compare.has bp ps

theorem has_iff {s : Style} {bp ps : String} :
    s.has bp ps ↔ ps ∈ ((s.layers.get? bp).getD ∅).keys := by
  cases h : s.layers.get? bp with
  | none => simp [Style.has, Style.at?, h]
  | some states => simp [Style.has, Style.at?, h, OrderedMap.mem_keys_iff, Option.isSome_iff_exists]

theorem mem_keys_of_has {s : Style} {bp ps : String} (h : s.has bp ps) : bp ∈ s.layers.keys := by
  obtain ⟨properties, hat⟩ := Option.isSome_iff_exists.1 h
  obtain ⟨states, hstates, _⟩ := Option.bind_eq_some_iff.1 hat
  exact OrderedMap.mem_keys_iff.2 ⟨states, hstates⟩

theorem lookup_of_not_has {s : Style} {bp ps : String} (h : s.has bp ps = false) :
    s.lookup bp ps = ∅ := by
  simp only [Style.has, Option.isSome_eq_false_iff, Option.isNone_iff_eq_none] at h
  simp [Style.lookup_eq, h]

theorem looksAt_iff {scope : DiffScope} {base compare : Style} {bp ps : String} :
    looksAt scope base compare bp ps ↔
      bp ∈ breakpoints scope base compare ∧ ps ∈ states scope base compare bp := by
  cases scope with
  | base =>
      simp only [looksAt, breakpoints, states, ← has_iff]
      exact ⟨fun h => ⟨mem_keys_of_has h, h⟩, And.right⟩
  | union =>
      simp only [looksAt, breakpoints, states, Bool.or_eq_true, List.mem_append, ← has_iff]
      exact ⟨fun h => ⟨h.imp mem_keys_of_has mem_keys_of_has, h⟩, And.right⟩

theorem at?_tabulate {α : Type} (scope : DiffScope) (base compare : Style)
    (f : Properties → Properties → α) (bp ps : String) :
    at? (tabulate scope base compare f) bp ps =
      if looksAt scope base compare bp ps then some (f (base.lookup bp ps) (compare.lookup bp ps))
      else none := by
  simp only [at?, tabulate, OrderedMap.get?_tabulate, looksAt_iff]
  by_cases hb : bp ∈ breakpoints scope base compare
  · simp [hb, OrderedMap.get?_tabulate]
  · simp [hb]

theorem exists_at?_of_mem_values {α : Type} {m : OrderedMap (OrderedMap α)} {states : OrderedMap α} {a : α}
    (hstates : states ∈ m.values) (ha : a ∈ states.values) : ∃ bp ps, at? m bp ps = some a := by
  obtain ⟨⟨bp, _⟩, htier, rfl⟩ := List.mem_map.1 hstates
  obtain ⟨⟨ps, _⟩, hstate, rfl⟩ := List.mem_map.1 ha
  exact ⟨bp, ps, Option.bind_eq_some_iff.2
    ⟨_, OrderedMap.get?_eq_some_iff.2 htier, OrderedMap.get?_eq_some_iff.2 hstate⟩⟩

/-! ## Two maps of properties -/

theorem get?_addedIn (base compare : Properties) (p : String) :
    (addedIn base compare).get? p = if base.get? p = none then compare.get? p else none := by
  simp only [addedIn, OrderedMap.get?_filter, OrderedMap.contains]
  cases base.get? p <;> cases compare.get? p <;> rfl

theorem get?_removedIn (base compare : Properties) (p : String) :
    (removedIn base compare).get? p = if compare.get? p = none then base.get? p else none := by
  simp only [removedIn, OrderedMap.get?_filter, OrderedMap.contains]
  cases base.get? p <;> cases compare.get? p <;> rfl

theorem get?_changedIn_eq_some_iff {base compare : Properties} {p : String} {c : Change} :
    (changedIn base compare).get? p = some c ↔
      base.get? p = some c.old ∧ compare.get? p = some c.new ∧ c.old ≠ c.new := by
  obtain ⟨old, new⟩ := c
  simp only [changedIn, OrderedMap.get?_filterMap, Option.bind_eq_some_iff]
  constructor
  · rintro ⟨v, hv, w, hw, hc⟩
    split at hc
    next => cases hc
    next hne =>
      cases hc
      exact ⟨hv, hw, Ne.symm hne⟩
  · rintro ⟨hv, hw, hne⟩
    exact ⟨old, hv, new, hw, if_neg (Ne.symm hne)⟩

/-- The base without what is removed, with what is added, and with the new values of what is changed. -/
def patch (base added removed : Properties) (changed : OrderedMap Change) : Properties :=
  ((base.filter fun p _ => !removed.contains p).insertMany added.entries).insertMany
    (changed.filterMap fun _ c => some c.new).entries

theorem get?_patch (base added removed : Properties) (changed : OrderedMap Change) (p : String) :
    (patch base added removed changed).get? p =
      (((changed.get? p).map (·.new)).or ((added.get? p).or
        (if removed.get? p = none then base.get? p else none))) := by
  simp only [patch, OrderedMap.get?_insertMany, OrderedMap.lookup_reverse_entries,
    OrderedMap.get?_filterMap, OrderedMap.get?_filter, OrderedMap.contains]
  cases removed.get? p <;> cases base.get? p <;> cases changed.get? p <;> rfl

/-- What an entry tells of the properties on the two sides. -/
structure Tells (base compare added removed : Properties) (changed : OrderedMap Change) : Prop where
  added_removed : added.keys.Disjoint removed.keys
  added_changed : added.keys.Disjoint changed.keys
  removed_changed : removed.keys.Disjoint changed.keys
  /-- A property is listed if its value is not the same, or is on one side alone. -/
  listed : ∀ p, p ∈ added.keys ∨ p ∈ removed.keys ∨ p ∈ changed.keys ↔ base.get? p ≠ compare.get? p
  added_base : added.keys.Disjoint base.keys
  old : ∀ p c, changed.get? p = some c → base.get? p = some c.old
  /-- The entries of the other side, in whichever order. -/
  patched : (patch base added removed changed).entries.Perm compare.entries

section

variable (base compare : Properties) (p : String)

theorem mem_keys_addedIn :
    p ∈ (addedIn base compare).keys ↔ base.get? p = none ∧ compare.get? p ≠ none := by
  rw [← not_iff_not, ← OrderedMap.get?_eq_none_iff, get?_addedIn]
  cases base.get? p <;> simp

theorem mem_keys_removedIn :
    p ∈ (removedIn base compare).keys ↔ base.get? p ≠ none ∧ compare.get? p = none := by
  rw [← not_iff_not, ← OrderedMap.get?_eq_none_iff, get?_removedIn]
  cases compare.get? p <;> simp

theorem mem_keys_changedIn : p ∈ (changedIn base compare).keys ↔
    base.get? p ≠ none ∧ compare.get? p ≠ none ∧ base.get? p ≠ compare.get? p := by
  simp only [OrderedMap.mem_keys_iff, get?_changedIn_eq_some_iff]
  constructor
  · rintro ⟨c, hb, hc, hne⟩
    simp [hb, hc, hne]
  · rintro ⟨hb, hc, hne⟩
    obtain ⟨old, hold⟩ := Option.ne_none_iff_exists'.1 hb
    obtain ⟨new, hnew⟩ := Option.ne_none_iff_exists'.1 hc
    exact ⟨⟨old, new⟩, hold, hnew, by simpa [hold, hnew] using hne⟩

theorem get?_patch_between :
    (patch base (addedIn base compare) (removedIn base compare) (changedIn base compare)).get? p =
      compare.get? p := by
  rw [get?_patch]
  cases hc : (changedIn base compare).get? p with
  | some c => simp [(get?_changedIn_eq_some_iff.1 hc).2.1]
  | none =>
      have hsame : ∀ old new, base.get? p = some old → compare.get? p = some new → old = new := by
        intro old new hold hnew
        by_contra hne
        have := get?_changedIn_eq_some_iff (c := ⟨old, new⟩) |>.2 ⟨hold, hnew, hne⟩
        simp [hc] at this
      simp only [get?_addedIn, get?_removedIn]
      cases hbase : base.get? p <;> cases hcompare : compare.get? p <;> simp_all

end

theorem tells_between (base compare : Properties) :
    Tells base compare (addedIn base compare) (removedIn base compare) (changedIn base compare) where
  added_removed p hadded hremoved :=
    ((mem_keys_removedIn ..).1 hremoved).1 ((mem_keys_addedIn ..).1 hadded).1
  added_changed p hadded hchanged :=
    ((mem_keys_changedIn ..).1 hchanged).1 ((mem_keys_addedIn ..).1 hadded).1
  removed_changed p hremoved hchanged :=
    ((mem_keys_changedIn ..).1 hchanged).2.1 ((mem_keys_removedIn ..).1 hremoved).2
  listed p := by
    simp only [mem_keys_addedIn, mem_keys_removedIn, mem_keys_changedIn]
    cases base.get? p <;> cases compare.get? p <;> simp
  added_base p hadded := OrderedMap.get?_eq_none_iff.1 ((mem_keys_addedIn ..).1 hadded).1
  old p c h := (get?_changedIn_eq_some_iff.1 h).1
  patched := OrderedMap.perm_of_get? (get?_patch_between base compare)

/-- At each address that has been looked at, and at no other, the three maps have entries, which tell how to
get from the properties of the one style to those of the other. -/
theorem entries_between (scope : DiffScope) (base compare : Style) (bp ps : String) :
    let d := between scope base compare
    if looksAt scope base compare bp ps then
      ∃ added removed changed, at? d.added bp ps = some added ∧
        at? d.removed bp ps = some removed ∧ at? d.changed bp ps = some changed ∧
        Tells (base.lookup bp ps) (compare.lookup bp ps) added removed changed
    else at? d.added bp ps = none ∧ at? d.removed bp ps = none ∧ at? d.changed bp ps = none := by
  simp only [between, at?_tabulate]
  split
  next => exact ⟨_, _, _, rfl, rfl, rfl, tells_between _ _⟩
  next => exact ⟨rfl, rfl, rfl⟩

end Diff
end TieredStyle
