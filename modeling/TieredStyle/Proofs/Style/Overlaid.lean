import TieredStyle.Proofs.Style.Combined
import TieredStyle.Proofs.Style.Difference

/-!
# The difference that a later style makes

A union takes nothing away from the first of two styles. What differs afterwards is what the second style
sets: a property that the first does not have is added, and one with another value is changed.
-/
namespace TieredStyle

namespace Diff

/-! ## Properties in a difference -/

/-- What a map of a difference has for a property at an address. -/
def get? {α : Type} (m : OrderedMap (OrderedMap (OrderedMap α))) (bp ps p : String) : Option α :=
  (at? m bp ps).bind (·.get? p)

/-- A union of scopes misses nothing: where it does not look there is no property. -/
theorem get?_tabulate_union {α : Type} {base compare : Style}
    {f : Properties → Properties → OrderedMap α} (hf : f ∅ ∅ = ∅) (bp ps p : String) :
    get? (tabulate .union base compare f) bp ps p =
      (f (base.lookup bp ps) (compare.lookup bp ps)).get? p := by
  simp only [get?, at?_tabulate]
  split
  next => rfl
  next hlooks =>
    simp only [looksAt, Bool.or_eq_true, not_or, Bool.not_eq_true] at hlooks
    simp [lookup_of_not_has hlooks.1, lookup_of_not_has hlooks.2, hf]

/-! ## A style put over another -/

theorem get?_merge_pair (base patch : Style) (bp ps p : String) :
    (Style.merge .union [base, patch]).get? bp ps p =
      (patch.get? bp ps p).or (base.get? bp ps p) := by
  simp only [Style.get?, Style.lookup_merge, Merging.admits, ↓reduceIte, Style.get?_gathered,
    List.reverse_cons, List.reverse_nil, List.nil_append, List.singleton_append, List.findSome?_cons,
    List.findSome?_nil]
  cases (patch.lookup bp ps).get? p <;> cases (base.lookup bp ps).get? p <;> rfl

theorem removedIn_merge_pair (base patch : Style) (bp ps : String) :
    removedIn (base.lookup bp ps) ((Style.merge .union [base, patch]).lookup bp ps) = ∅ := by
  apply OrderedMap.eq_empty_of_get?
  intro p
  have hmerged := get?_merge_pair base patch bp ps p
  simp only [Style.get?] at hmerged
  rw [get?_removedIn, hmerged]
  simp +contextual

/-- Putting a style over another removes nothing, adds what the other does not have, and changes what it
has with another value. -/
theorem between_merge_pair (base patch : Style) :
    let d := between .union base (Style.merge .union [base, patch])
    (∀ states ∈ d.removed.values, ∀ properties ∈ states.values, properties = ∅) ∧
      ∀ bp ps p,
        (∀ v, get? d.added bp ps p = some v ↔
          base.get? bp ps p = none ∧ patch.get? bp ps p = some v) ∧
        ∀ c, get? d.changed bp ps p = some c ↔
          base.get? bp ps p = some c.old ∧ patch.get? bp ps p = some c.new ∧ c.old ≠ c.new := by
  refine ⟨?_, fun bp ps p => ?_⟩
  · intro states hstates properties hproperties
    obtain ⟨bp, ps, hat⟩ := exists_at?_of_mem_values hstates hproperties
    simp only [between, at?_tabulate, Option.ite_none_right_eq_some, Option.some.injEq] at hat
    exact hat.2.symm.trans (removedIn_merge_pair base patch bp ps)
  · have hmerged := get?_merge_pair base patch bp ps p
    simp only [Style.get?] at hmerged
    constructor
    · intro v
      simp only [between, get?_tabulate_union (f := addedIn) rfl, get?_addedIn, hmerged, Style.get?]
      simp +contextual
    · intro c
      simp only [between, get?_tabulate_union (f := changedIn) rfl, get?_changedIn_eq_some_iff, hmerged,
        Style.get?]
      cases (patch.lookup bp ps).get? p <;> simp +contextual

/-- One property is at an address that the later style brings, and one is given another value. -/
theorem between_merge_pair_hover :
    ∃ base patch, base = (default : Style).set "default" "default" "color" "red" ∧
      patch = ((default : Style).set "md" "hover" "margin" "0").set "default" "default" "color" "blue" ∧
      let d := between .union base (Style.merge .union [base, patch])
      (∃ states ∈ d.removed.values, ∃ properties ∈ states.values, properties = ∅) ∧
        get? d.added "md" "hover" "margin" = some "0" ∧
        get? d.changed "default" "default" "color" = some ⟨"red", "blue"⟩ := by
  obtain ⟨hremoved, hat⟩ := between_merge_pair ((default : Style).set "default" "default" "color" "red")
    (((default : Style).set "md" "hover" "margin" "0").set "default" "default" "color" "blue")
  refine ⟨_, _, rfl, rfl, ⟨_, List.mem_cons_self, _, List.mem_cons_self, ?_⟩, ?_, ?_⟩
  · exact hremoved _ List.mem_cons_self _ List.mem_cons_self
  · exact ((hat "md" "hover" "margin").1 "0").2 (by decide)
  · exact ((hat "default" "default" "color").2 ⟨"red", "blue"⟩).2 (by decide)

end Diff
end TieredStyle
