import TieredStyle.Css.Fragment

/-!
# Collecting up to a stop

What is collected is the longest run of tokens that goes past no stop outside brackets. If something is
left, or if the brackets are closed in the end, the run closes each bracket that it opens, and then it is
collected again in front of any stop.
-/
namespace TieredStyle.Css

/-- Bracket depth after tokens of these kinds. -/
def depthAfterAll (depth : Nat) (ks : List Kind) : Nat := ks.foldl Kind.depthAfter depth

/-- There is no stop outside brackets, and the brackets are closed in the end. -/
def Passes (stop : Kind → Bool) (depth : Nat) : List Kind → Prop
  | [] => depth = 0
  | k :: ks => (depth = 0 → stop k = false) ∧ Passes stop (k.depthAfter depth) ks

theorem Passes.depthAfterAll_eq {stop : Kind → Bool} {depth : Nat} {ks : List Kind}
    (h : Passes stop depth ks) : depthAfterAll depth ks = 0 := by
  induction ks generalizing depth with
  | nil => exact h
  | cons k ks ih => exact ih h.2

theorem collect_of_passes {stop : Kind → Bool} {depth : Nat} {ts rest : List Token}
    (h : Passes stop depth (ts.map (·.kind))) (hrest : ∀ t ∈ rest.head?, stop t.kind = true) :
    collect stop depth (ts ++ rest) = (ts, rest) := by
  induction ts generalizing depth with
  | nil =>
      cases rest with
      | nil => rfl
      | cons t rest => rw [List.nil_append, collect, if_pos ⟨h, hrest t rfl⟩]
  | cons t ts ih =>
      have hstop : ¬(depth = 0 ∧ stop t.kind = true) := fun hs => by
        have := h.1 hs.1
        rw [hs.2] at this
        cases this
      rw [List.cons_append, collect, if_neg hstop, ih h.2]

theorem stop_of_collect {stop : Kind → Bool} {depth : Nat} {ts : List Token} :
    ∀ t ∈ (collect stop depth ts).2.head?, stop t.kind = true := by
  induction ts generalizing depth with
  | nil =>
      intro t ht
      cases ht
  | cons u ts ih =>
      rw [collect]
      split
      next hs =>
        intro t ht
        cases ht
        exact hs.2
      next => exact ih

/-- What is collected is passed, unless the tokens end inside a bracket. -/
theorem passes_collect {stop : Kind → Bool} {depth : Nat} {ts : List Token}
    (h : (collect stop depth ts).2 = [] → depthAfterAll depth (ts.map (·.kind)) = 0) :
    Passes stop depth ((collect stop depth ts).1.map (·.kind)) := by
  induction ts generalizing depth with
  | nil => exact h rfl
  | cons t ts ih =>
      rw [collect] at h ⊢
      split
      next hs => exact hs.1
      next hs =>
        rw [if_neg hs] at h
        refine ⟨fun hd => ?_, ih h⟩
        simpa [hd] using hs

/-- What is collected before a stop that is left. -/
theorem collect_eq_cons {stop : Kind → Bool} {ts head us : List Token} {e : Token}
    (h : collect stop 0 ts = (head, e :: us)) :
    ts = head ++ e :: us ∧ stop e.kind = true ∧ Passes stop 0 (head.map (·.kind)) := by
  have happend := collect_append stop 0 ts
  have hstop := @stop_of_collect stop 0 ts
  have hpasses := @passes_collect stop 0 ts
  rw [h] at happend hstop hpasses
  exact ⟨happend.symm, hstop e rfl, hpasses fun hnil => by cases hnil⟩

/-- What is collected before a stop is so whatever stands behind the stop. -/
theorem collect_before {stop : Kind → Bool} {ts head us : List Token} {e : Token}
    (h : collect stop 0 ts = (head, e :: us)) :
    ts = head ++ e :: us ∧ ∀ ws, collect stop 0 (head ++ e :: ws) = (head, e :: ws) := by
  obtain ⟨hts, hstop, hpasses⟩ := collect_eq_cons h
  exact ⟨hts, fun ws => collect_of_passes hpasses fun t ht => by cases ht; exact hstop⟩

/-- A token that does not stop is the first to be collected. -/
theorem exists_cons_of_collect {stop : Kind → Bool} {t e : Token} {ts head us : List Token}
    (ht : stop t.kind = false) (h : collect stop 0 (t :: ts) = (head, e :: us)) :
    ∃ head', head = t :: head' ∧ ts = head' ++ e :: us := by
  obtain ⟨hts, hstop, _⟩ := collect_eq_cons h
  cases head with
  | nil =>
      obtain ⟨rfl, _⟩ := List.cons.inj hts
      rw [ht] at hstop
      cases hstop
  | cons t' head =>
      obtain ⟨rfl, htail⟩ := List.cons.inj hts
      exact ⟨head, rfl, htail⟩

theorem collect_cons_before {stop : Kind → Bool} {t e : Token} {ts head us : List Token}
    (ht : stop t.kind = false) (h : collect stop 0 (t :: ts) = (head, e :: us)) : ∃ head',
      ts = head' ++ e :: us ∧ ∀ ws, collect stop 0 (t :: (head' ++ e :: ws)) = (head, e :: ws) := by
  obtain ⟨head', rfl, htail⟩ := exists_cons_of_collect ht h
  exact ⟨head', htail, (collect_before h).2⟩

/-! ## Depth -/

theorem depthAfterAll_append (depth : Nat) (ks ls : List Kind) :
    depthAfterAll depth (ks ++ ls) = depthAfterAll (depthAfterAll depth ks) ls :=
  List.foldl_append

/-- The depth in the end is that of what is left at a stop. -/
theorem depthAfterAll_of_collect {stop : Kind → Bool} {ts head us : List Token} {e : Token}
    (h : collect stop 0 ts = (head, e :: us)) :
    depthAfterAll 0 (ts.map (·.kind)) = depthAfterAll 0 ((e :: us).map (·.kind)) := by
  obtain ⟨hts, _, hpasses⟩ := collect_eq_cons h
  rw [hts, List.map_append, depthAfterAll_append, hpasses.depthAfterAll_eq]

theorem depthAfterAll_cons {t : Token} {ts : List Token} (h : t.kind.depthAfter 0 = 0) :
    depthAfterAll 0 ((t :: ts).map (·.kind)) = depthAfterAll 0 (ts.map (·.kind)) := by
  rw [List.map_cons, depthAfterAll, List.foldl_cons, h]
  rfl

end TieredStyle.Css
