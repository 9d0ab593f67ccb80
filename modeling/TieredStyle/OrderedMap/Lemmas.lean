import TieredStyle.OrderedMap

/-! What the operations of an ordered map do to look-ups, to the order of the keys and to the entries. -/
namespace TieredStyle.OrderedMap

variable {α : Type u} {β : Type v}

@[simp] theorem get?_empty (k : String) : (∅ : OrderedMap α).get? k = none := rfl

@[simp] theorem keys_empty : (∅ : OrderedMap α).keys = [] := rfl

private theorem lookup_alterEntries (k j : String) (f : Option α → α) (es : List (String × α)) :
    (alterEntries k f es).lookup j = if j = k then some (f (es.lookup k)) else es.lookup j := by
  induction es with
  | nil => by_cases h : j = k <;> simp [alterEntries, List.lookup_cons, h, beq_eq_false_iff_ne.2]
  | cons e es ih =>
    obtain ⟨k', v⟩ := e
    by_cases hk : k' = k
    · subst hk
      by_cases hj : j = k' <;> simp [alterEntries, List.lookup_cons, hj, beq_eq_false_iff_ne.2]
    · have hk' : (k == k') = false := by simpa using fun h => hk h.symm
      by_cases hj : j = k'
      · subst hj
        simp [alterEntries, hk]
      · have hj' : (j == k') = false := by simpa using hj
        simp [alterEntries, hk, List.lookup_cons, hj', hk', ih]

theorem get?_alter (m : OrderedMap α) (k j : String) (f : Option α → α) :
    (m.alter k f).get? j = if j = k then some (f (m.get? k)) else m.get? j :=
  lookup_alterEntries k j f m.entries

theorem keys_alter (m : OrderedMap α) (k : String) (f : Option α → α) :
    (m.alter k f).keys = if k ∈ m.keys then m.keys else m.keys ++ [k] :=
  keys_alterEntries k f m.entries

theorem get?_insert (m : OrderedMap α) (k j : String) (v : α) :
    (m.insert k v).get? j = if j = k then some v else m.get? j := get?_alter ..

theorem keys_insert (m : OrderedMap α) (k : String) (v : α) :
    (m.insert k v).keys = if k ∈ m.keys then m.keys else m.keys ++ [k] := keys_alter ..

@[simp] theorem keys_modify (m : OrderedMap α) (k : String) (f : α → α) :
    (m.modify k f).keys = m.keys := by
  simp only [modify, keys, List.map_map]
  exact List.map_congr_left fun e _ => by simp only [Function.comp_apply]; split <;> rfl

theorem get?_modify (m : OrderedMap α) (k j : String) (f : α → α) :
    (m.modify k f).get? j = if j = k then (m.get? k).map f else m.get? j := by
  simp only [modify, get?]
  induction m.entries with
  | nil => simp
  | cons e es ih =>
    obtain ⟨k', v⟩ := e
    by_cases hk : k' = k
    · subst hk
      by_cases hj : j = k'
      · simp [hj]
      · have hj' : (j == k') = false := by simpa using hj
        simp [List.lookup_cons, hj, hj', ih]
    · have hk' : (k == k') = false := by simpa using fun h => hk h.symm
      by_cases hj : j = k'
      · subst hj
        simp [hk]
      · have hj' : (j == k') = false := by simpa using hj
        simp [hk, List.lookup_cons, hj', hk', ih]

private theorem lookup_eq_some_iff {es : List (String × α)} (h : (es.map Prod.fst).Nodup)
    {k : String} {v : α} : es.lookup k = some v ↔ (k, v) ∈ es := by
  induction es with
  | nil => simp
  | cons e es ih =>
    obtain ⟨k', v'⟩ := e
    simp only [List.map_cons, List.nodup_cons] at h
    by_cases hk : k = k'
    · subst hk
      have : (k, v) ∉ es := fun hm => h.1 (List.mem_map.2 ⟨_, hm, rfl⟩)
      simp [this, eq_comm]
    · have hk' : (k == k') = false := by simpa using hk
      simp [List.lookup_cons, hk', hk, ih h.2]

theorem get?_eq_some_iff {m : OrderedMap α} {k : String} {v : α} :
    m.get? k = some v ↔ (k, v) ∈ m.entries := lookup_eq_some_iff m.nodup_keys

theorem get?_eq_none_iff {m : OrderedMap α} {k : String} : m.get? k = none ↔ k ∉ m.keys := by
  simp only [Option.eq_none_iff_forall_ne_some, ne_eq, get?_eq_some_iff, keys, List.mem_map,
    Prod.exists, exists_and_right, exists_eq_right, not_exists]

theorem get?_filter (m : OrderedMap α) (p : String → α → Bool) (k : String) :
    (m.filter p).get? k = (m.get? k).filter (p k) := by
  ext v
  rw [get?_eq_some_iff, Option.filter_eq_some_iff, get?_eq_some_iff]
  simp [filter, List.mem_filter]

theorem get?_filterMap (m : OrderedMap α) (f : String → α → Option β) (k : String) :
    (m.filterMap f).get? k = (m.get? k).bind (f k) := by
  ext v
  rw [get?_eq_some_iff, Option.bind_eq_some_iff]
  simp only [get?_eq_some_iff, filterMap, List.mem_filterMap, Option.map_eq_some_iff,
    Prod.mk.injEq, Prod.exists]
  constructor
  · rintro ⟨k', a, hm, b, hf, rfl, rfl⟩
    exact ⟨a, hm, hf⟩
  · rintro ⟨a, hm, hf⟩
    exact ⟨k, a, hm, v, hf, rfl, rfl⟩

/-! ## The entries -/

theorem alterEntries_of_notMem {k : String} {es : List (String × α)} (h : k ∉ es.map Prod.fst)
    (f : Option α → α) : alterEntries k f es = es ++ [(k, f none)] := by
  induction es with
  | nil => rfl
  | cons e es ih =>
      simp only [List.map_cons, List.mem_cons, not_or] at h
      rw [alterEntries, if_neg fun he => h.1 he.symm, ih h.2, List.cons_append]

theorem entries_insertMany {m : OrderedMap α} {es : List (String × α)}
    (h : ((m.entries ++ es).map Prod.fst).Nodup) : (m.insertMany es).entries = m.entries ++ es := by
  induction es generalizing m with
  | nil => exact (List.append_nil _).symm
  | cons e es ih =>
      have hnotMem : e.1 ∉ m.entries.map Prod.fst := by
        rw [List.map_append, List.map_cons] at h
        intro hmem
        exact (List.nodup_append.1 h).2.2 e.1 hmem e.1 List.mem_cons_self rfl
      have hinsert : (m.insert e.1 e.2).entries = m.entries ++ [e] := alterEntries_of_notMem hnotMem _
      rw [insertMany, List.foldl_cons, ← insertMany, ih, hinsert, List.append_assoc,
        List.singleton_append]
      rwa [hinsert, List.append_assoc, List.singleton_append]

theorem insertMany_empty (m : OrderedMap α) : (∅ : OrderedMap α).insertMany m.entries = m :=
  ext (entries_insertMany (m := ∅) m.nodup_keys)

theorem alterEntries_append {k : String} {pre : List (String × α)} (h : k ∉ pre.map Prod.fst) (v : α)
    (post : List (String × α)) (f : Option α → α) :
    alterEntries k f (pre ++ (k, v) :: post) = pre ++ (k, f (some v)) :: post := by
  induction pre with
  | nil => simp [alterEntries]
  | cons e pre ih =>
      simp only [List.map_cons, List.mem_cons, not_or] at h
      rw [List.cons_append, alterEntries, if_neg fun he => h.1 he.symm, ih h.2, List.cons_append]

/-- The entries on the two sides of a key, which altering its value leaves as they are. -/
theorem exists_split {m : OrderedMap α} {k : String} {v : α} (h : m.get? k = some v) :
    ∃ pre post, m.entries = pre ++ (k, v) :: post ∧ k ∉ pre.map Prod.fst ∧
      ∀ f, (m.alter k f).entries = pre ++ (k, f (some v)) :: post := by
  obtain ⟨pre, post, hsplit⟩ := List.append_of_mem (get?_eq_some_iff.1 h)
  have hnodup := m.nodup_keys
  rw [hsplit, List.map_append, List.map_cons] at hnodup
  have hpre : k ∉ pre.map Prod.fst := fun hk =>
    (List.nodup_append.1 hnodup).2.2 k hk k List.mem_cons_self rfl
  refine ⟨pre, post, hsplit, hpre, fun f => ?_⟩
  show alterEntries k f m.entries = _
  rw [hsplit]
  exact alterEntries_append hpre v post f

theorem isEmpty_insert (m : OrderedMap α) (k : String) (v : α) : (m.insert k v).isEmpty = false := by
  have hget : (m.insert k v).get? k = some v := by rw [get?_insert, if_pos rfl]
  rw [isEmpty, List.isEmpty_eq_false_iff]
  exact List.ne_nil_of_mem (get?_eq_some_iff.1 hget)

theorem mem_of_mem_insertMany {m : OrderedMap α} {es : List (String × α)} {e : String × α}
    (h : e ∈ (m.insertMany es).entries) : e ∈ m.entries ∨ e ∈ es := by
  induction es generalizing m with
  | nil => exact .inl h
  | cons e' es ih =>
      rcases ih h with h | h
      · rw [← get?_eq_some_iff (k := e.1) (v := e.2), get?_insert] at h
        split at h
        next hk =>
          refine .inr (List.mem_cons.2 (.inl (Prod.ext hk ?_)))
          exact (Option.some.inj h).symm
        next => exact .inl (get?_eq_some_iff.1 h)
      · exact .inr (List.mem_cons_of_mem _ h)

end TieredStyle.OrderedMap
