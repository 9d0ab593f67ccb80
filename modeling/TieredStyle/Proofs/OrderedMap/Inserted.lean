import TieredStyle.OrderedMap.Lemmas
import TieredStyle.Proofs.FirstSeen

/-!
# Maps after many insertions

An ordered map is its keys in order with the value at each of them. Insertions put the keys in the order in
which they first come, and the last value of a key counts.
-/
namespace TieredStyle.OrderedMap

variable {α : Type}

/-! ## Keys and look-ups -/

theorem entries_eq (m : OrderedMap α) :
    m.entries = m.keys.filterMap fun k => (m.get? k).map (k, ·) := by
  rw [keys, List.filterMap_map]
  have hself : ∀ e ∈ m.entries,
      ((fun k => (m.get? k).map (k, ·)) ∘ Prod.fst) e = some e := by
    intro e he
    rw [Function.comp_apply, get?_eq_some_iff.2 he]
    rfl
  rw [List.filterMap_congr hself, List.filterMap_some]

theorem eq_of_get? {m n : OrderedMap α} (hkeys : m.keys = n.keys)
    (hget : ∀ k, m.get? k = n.get? k) : m = n := by
  refine ext ?_
  rw [entries_eq, entries_eq, hkeys]
  simp only [hget]

theorem mem_keys_iff {m : OrderedMap α} {k : String} : k ∈ m.keys ↔ ∃ v, m.get? k = some v := by
  rw [← not_iff_not, ← get?_eq_none_iff, Option.eq_none_iff_forall_ne_some, not_exists]

/-- Maps with the same keys are told by the values at these. -/
theorem eq_of_keys {m n : OrderedMap α} (hkeys : m.keys = n.keys)
    (hget : ∀ k v v', m.get? k = some v → n.get? k = some v' → v = v') : m = n := by
  refine eq_of_get? hkeys fun k => ?_
  cases hv : m.get? k with
  | none =>
      rw [get?_eq_none_iff, hkeys] at hv
      exact (get?_eq_none_iff.2 hv).symm
  | some v =>
      have hmem : k ∈ n.keys := hkeys ▸ mem_keys_iff.2 ⟨v, hv⟩
      obtain ⟨v', hv'⟩ := mem_keys_iff.1 hmem
      rw [hv', hget k v v' hv hv']

/-- Maps that agree at each key have the same entries, in whichever order. -/
theorem perm_of_get? {m n : OrderedMap α} (hget : ∀ k, m.get? k = n.get? k) :
    m.entries.Perm n.entries := by
  have hnodup : ∀ m : OrderedMap α, m.entries.Nodup := fun m => m.nodup_keys.of_map
  apply (List.perm_ext_iff_of_nodup (hnodup m) (hnodup n)).2
  rintro ⟨k, v⟩
  simp only [← get?_eq_some_iff, hget]

theorem eq_empty_of_get? {m : OrderedMap α} (hget : ∀ k, m.get? k = none) : m = ∅ :=
  ext (perm_of_get? (n := ∅) hget).eq_nil

/-! ## Many insertions -/

theorem keys_insertMany (m : OrderedMap α) (es : List (String × α)) :
    (m.insertMany es).keys = (m.keys ++ es.map Prod.fst).eraseDups := by
  induction es generalizing m with
  | nil =>
      rw [List.map_nil, List.append_nil]
      exact (eraseDups_of_nodup m.nodup_keys).symm
  | cons e es ih =>
      have hfirst : (if e.1 ∈ m.keys then m.keys else m.keys ++ [e.1]).eraseDups =
          (m.keys ++ [e.1]).eraseDups := by
        split
        next hmem => exact (eraseDups_append_of_subset (by simpa using hmem)).symm
        next => rfl
      rw [insertMany, List.foldl_cons, ← insertMany, ih, keys_insert,
        eraseDups_append_congr hfirst rfl, List.append_assoc]
      rfl

theorem get?_insertMany (m : OrderedMap α) (es : List (String × α)) (k : String) :
    (m.insertMany es).get? k = (es.reverse.lookup k).or (m.get? k) := by
  induction es generalizing m with
  | nil => rfl
  | cons e es ih =>
      obtain ⟨k', v⟩ := e
      rw [insertMany, List.foldl_cons, ← insertMany, ih, get?_insert, List.reverse_cons,
        List.lookup_append, Option.or_assoc]
      congr 1
      by_cases hk : k = k' <;> simp [List.lookup_cons, hk, beq_eq_false_iff_ne.2]

theorem insertMany_append (m : OrderedMap α) (es es' : List (String × α)) :
    m.insertMany (es ++ es') = (m.insertMany es).insertMany es' := List.foldl_append

theorem keys_ofList (es : List (String × α)) : (ofList es).keys = (es.map Prod.fst).eraseDups :=
  keys_insertMany ∅ es

theorem get?_ofList (es : List (String × α)) (k : String) :
    (ofList es).get? k = es.reverse.lookup k := by
  rw [ofList, get?_insertMany]
  exact Option.or_none

theorem lookup_reverse_entries (m : OrderedMap α) (k : String) :
    m.entries.reverse.lookup k = m.get? k := by
  rw [← get?_ofList]
  exact congrArg (·.get? k) (insertMany_empty m)

/-- Entries may be gathered in a map before they are inserted. -/
theorem insertMany_entries_ofList (m : OrderedMap α) (es : List (String × α)) :
    m.insertMany (ofList es).entries = m.insertMany es := by
  refine eq_of_get? ?_ fun k => ?_
  · have hkeys : (ofList es).entries.map Prod.fst = (es.map Prod.fst).eraseDups := keys_ofList es
    rw [keys_insertMany, keys_insertMany, hkeys]
    exact eraseDups_append_congr rfl (eraseDups_eraseDups _)
  · rw [get?_insertMany, get?_insertMany, lookup_reverse_entries, get?_ofList]

theorem ofList_append (es es' : List (String × α)) :
    ofList ((ofList es).entries ++ (ofList es').entries) = ofList (es ++ es') := by
  rw [ofList, insertMany_append, insertMany_entries_ofList, insertMany_entries_ofList,
    ← insertMany_append, ← ofList]

/-! ## Values under given keys -/

theorem tabulate_eq (ks : List String) (f : String → α) :
    tabulate ks f = ofList (ks.map fun k => (k, f k)) := by
  rw [ofList, insertMany, List.foldl_map]
  rfl

theorem keys_tabulate (ks : List String) (f : String → α) : (tabulate ks f).keys = ks.eraseDups := by
  rw [tabulate_eq, keys_ofList, List.map_map]
  exact congrArg _ (List.map_id ks)

theorem get?_tabulate (ks : List String) (f : String → α) (k : String) :
    (tabulate ks f).get? k = if k ∈ ks then some (f k) else none := by
  have hlookup : ∀ ks : List String, (ks.map fun k => (k, f k)).lookup k =
      if k ∈ ks then some (f k) else none := by
    intro ks
    induction ks with
    | nil => rfl
    | cons k' ks ih =>
        by_cases hk : k = k'
        · simp [hk]
        · simp [List.lookup_cons, hk, beq_eq_false_iff_ne.2, ih]
  rw [tabulate_eq, get?_ofList, ← List.map_reverse, hlookup]
  simp only [List.mem_reverse]

/-! ## Changes at one key -/

theorem modify_congr {m : OrderedMap α} {k : String} {f g : α → α}
    (h : ∀ v, m.get? k = some v → f v = g v) : m.modify k f = m.modify k g := by
  refine eq_of_get? (by rw [keys_modify, keys_modify]) fun j => ?_
  rw [get?_modify, get?_modify]
  cases hv : m.get? k with
  | none => rfl
  | some v => rw [Option.map_some, Option.map_some, h v hv]

theorem modify_eq_self {m : OrderedMap α} {k : String} {f : α → α}
    (h : ∀ v, m.get? k = some v → f v = v) : m.modify k f = m := by
  refine eq_of_get? (m.keys_modify k f) fun j => ?_
  rw [get?_modify]
  split
  next hj =>
    rw [hj]
    cases hv : m.get? k with
    | none => rfl
    | some v => rw [Option.map_some, h v hv]
  next => rfl

theorem modify_modify (m : OrderedMap α) (k : String) (f g : α → α) :
    (m.modify k f).modify k g = m.modify k fun v => g (f v) := by
  refine eq_of_get? (by simp only [keys_modify]) fun j => ?_
  simp only [get?_modify]
  by_cases hj : j = k
  · simp only [hj, ↓reduceIte, Option.map_map]
    rfl
  · simp only [hj, ↓reduceIte]

/-- At a key that is there, altering is modifying. -/
theorem alter_eq_modify {m : OrderedMap α} {k : String} (h : k ∈ m.keys) (f : Option α → α) :
    m.alter k f = m.modify k fun v => f (some v) := by
  refine eq_of_get? (by rw [keys_alter, if_pos h, keys_modify]) fun j => ?_
  obtain ⟨v, hv⟩ := mem_keys_iff.1 h
  rw [get?_alter, get?_modify, hv]
  rfl

end TieredStyle.OrderedMap
