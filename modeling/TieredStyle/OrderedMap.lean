/-! Maps with text keys that list their entries in the order in which the keys first came in. -/
namespace TieredStyle

/-- Entries in order of first insertion, each key once. -/
structure OrderedMap (α : Type u) where
  entries : List (String × α)
  nodup_keys : (entries.map Prod.fst).Nodup

namespace OrderedMap

variable {α : Type u} {β : Type v}

@[ext] theorem ext {m n : OrderedMap α} (h : m.entries = n.entries) : m = n := by
  cases m; cases n; cases h; rfl

instance [DecidableEq α] : DecidableEq (OrderedMap α) := fun m n =>
  decidable_of_iff (m.entries = n.entries) ⟨ext, fun h => h ▸ rfl⟩

def empty : OrderedMap α := ⟨[], .nil⟩

instance : EmptyCollection (OrderedMap α) := ⟨empty⟩
instance : Inhabited (OrderedMap α) := ⟨empty⟩

def keys (m : OrderedMap α) : List String := m.entries.map Prod.fst

def values (m : OrderedMap α) : List α := m.entries.map Prod.snd

def size (m : OrderedMap α) : Nat := m.entries.length

def isEmpty (m : OrderedMap α) : Bool := m.entries.isEmpty

def get? (m : OrderedMap α) (k : String) : Option α := m.entries.lookup k

def contains (m : OrderedMap α) (k : String) : Bool := (m.get? k).isSome

/-- Gives the entry at `k` the value that `f` makes of its old one, at its place or at the end. -/
def alterEntries (k : String) (f : Option α → α) : List (String × α) → List (String × α)
  | [] => [(k, f none)]
  | (k', v) :: es => if k' = k then (k', f (some v)) :: es else (k', v) :: alterEntries k f es

theorem keys_alterEntries (k : String) (f : Option α → α) (es : List (String × α)) :
    (alterEntries k f es).map Prod.fst =
      if k ∈ es.map Prod.fst then es.map Prod.fst else es.map Prod.fst ++ [k] := by
  induction es with
  | nil => simp [alterEntries]
  | cons e es ih =>
    by_cases h : e.1 = k
    · simp [alterEntries, h]
    · have h' : k ≠ e.1 := fun he => h he.symm
      simp only [alterEntries, h, ↓reduceIte, List.map_cons, ih, List.mem_cons, h', false_or]
      split <;> simp

theorem nodup_alterEntries (k : String) (f : Option α → α) {es : List (String × α)}
    (h : (es.map Prod.fst).Nodup) : ((alterEntries k f es).map Prod.fst).Nodup := by
  rw [keys_alterEntries]
  split
  · exact h
  next hk =>
    refine List.nodup_append.2 ⟨h, by simp, ?_⟩
    intro a ha b hb hab
    simp only [List.mem_singleton] at hb
    exact hk (hb ▸ hab ▸ ha)

/-- The value at `k` becomes what `f` makes of the old one; a new key goes to the end. -/
def alter (m : OrderedMap α) (k : String) (f : Option α → α) : OrderedMap α :=
  ⟨alterEntries k f m.entries, nodup_alterEntries k f m.nodup_keys⟩

/-- A key that is there keeps its place and takes the new value. -/
def insert (m : OrderedMap α) (k : String) (v : α) : OrderedMap α := m.alter k fun _ => v

/-- Changes the value at `k`, if there is one. -/
def modify (m : OrderedMap α) (k : String) (f : α → α) : OrderedMap α :=
  ⟨m.entries.map fun e => if e.1 = k then (e.1, f e.2) else e, by
    have h : (m.entries.map fun e => if e.1 = k then (e.1, f e.2) else e).map Prod.fst =
        m.entries.map Prod.fst := by
      rw [List.map_map]
      exact List.map_congr_left fun e _ => by simp only [Function.comp_apply]; split <;> rfl
    rw [h]
    exact m.nodup_keys⟩

/-- Inserts pair after pair. -/
def insertMany (m : OrderedMap α) (es : List (String × α)) : OrderedMap α :=
  es.foldl (fun m e => m.insert e.1 e.2) m

def ofList (es : List (String × α)) : OrderedMap α := (empty : OrderedMap α).insertMany es

/-- The value that `f` gives under each of the keys, in the order in which they first occur. -/
def tabulate (ks : List String) (f : String → α) : OrderedMap α :=
  ks.foldl (fun m k => m.insert k (f k)) ∅

/-- The entries whose key and value pass `p`. -/
def filter (m : OrderedMap α) (p : String → α → Bool) : OrderedMap α :=
  ⟨m.entries.filter fun e => p e.1 e.2,
    m.nodup_keys.sublist (List.filter_sublist.map _)⟩

/-- The values that `f` gives, under the keys at which it gives one. -/
def filterMap (m : OrderedMap α) (f : String → α → Option β) : OrderedMap β :=
  ⟨m.entries.filterMap fun e => (f e.1 e.2).map (e.1, ·), by
    have h : ((m.entries.filterMap fun e => (f e.1 e.2).map (e.1, ·)).map Prod.fst).Sublist
        (m.entries.map Prod.fst) := by
      induction m.entries with
      | nil => exact .slnil
      | cons e es ih =>
        cases hf : f e.1 e.2 with
        | none => simpa [hf] using ih.cons e.1
        | some b => simpa [hf] using ih.cons_cons e.1
    exact m.nodup_keys.sublist h⟩

end OrderedMap
end TieredStyle
