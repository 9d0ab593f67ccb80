import TieredStyle.Proofs.Grammar.Collect
import TieredStyle.Proofs.Grammar.Rest
import TieredStyle.Proofs.Outcome

/-!
# Reading a fragment

A fragment is read if none of its tokens outside brackets ends it, and what is read is the joined text of its
tokens. Only a value may have one more token, the mark behind it.
-/
namespace TieredStyle.Css

/-! ## Runs without a stop -/

/-- There is no stop outside brackets. -/
def Clear (stop : Kind → Bool) (depth : Nat) : List Kind → Prop
  | [] => True
  | k :: ks => (depth = 0 → stop k = false) ∧ Clear stop (k.depthAfter depth) ks

theorem collect_eq_nil_iff {stop : Kind → Bool} {depth : Nat} {ts : List Token} :
    (collect stop depth ts).2 = [] ↔ Clear stop depth (ts.map (·.kind)) := by
  induction ts generalizing depth with
  | nil => exact iff_of_true rfl trivial
  | cons t ts ih =>
      rw [collect, List.map_cons, Clear, ← ih]
      split
      next h =>
        refine iff_of_false (by simp) fun hc => ?_
        have := hc.1 h.1
        rw [h.2] at this
        cases this
      next h =>
        refine (and_iff_right fun hd => ?_).symm
        simpa [hd] using h

theorem collect_of_clear {stop : Kind → Bool} {depth : Nat} {ts : List Token}
    (h : Clear stop depth (ts.map (·.kind))) : collect stop depth ts = (ts, []) := by
  have hrest := collect_eq_nil_iff.2 h
  have happend := collect_append stop depth ts
  rw [hrest, List.append_nil] at happend
  exact Prod.ext happend hrest

theorem Passes.clear {stop : Kind → Bool} {depth : Nat} {ks : List Kind} (h : Passes stop depth ks) :
    Clear stop depth ks := by
  induction ks generalizing depth with
  | nil => trivial
  | cons k ks ih => exact ⟨h.1, ih h.2⟩

/-! ## The readers -/

theorem expectEnd_eq_ok {ts : List Token} {u : Unit} : expectEnd ts = .ok u ↔ ts = [] := by
  cases ts with
  | nil => exact iff_of_true rfl rfl
  | cons t ts =>
      constructor
      · intro h
        cases h
      · intro h
        cases h

theorem readSelector_eq_ok {x y : String} : readSelector x = .ok y ↔
    Token.ofText x ≠ [] ∧ Clear endsHead 0 ((Token.ofText x).map (·.kind)) ∧
      Spacing.selector.join (Token.ofText x) = y := by
  rw [readSelector]
  simp only [bind_eq_ok, expectEnd_eq_ok, collect_eq_nil_iff]
  constructor
  · rintro ⟨_, hclear, h⟩
    rw [collect_of_clear hclear] at h
    cases hts : Token.ofText x with
    | nil =>
        rw [hts] at h
        cases h
    | cons t ts =>
        rw [hts] at h hclear
        exact ⟨List.cons_ne_nil t ts, hclear, Except.ok.inj h⟩
  · rintro ⟨hne, hclear, rfl⟩
    refine ⟨(), hclear, ?_⟩
    rw [collect_of_clear hclear]
    cases hts : Token.ofText x with
    | nil => exact absurd hts hne
    | cons t ts => rfl

theorem readParams_eq_ok {x y : String} : readParams x = .ok y ↔
    Clear endsHead 0 ((Token.ofText x).map (·.kind)) ∧ Spacing.params.join (Token.ofText x) = y := by
  rw [readParams]
  simp only [bind_eq_ok, expectEnd_eq_ok, collect_eq_nil_iff]
  constructor
  · rintro ⟨_, hclear, h⟩
    rw [collect_of_clear hclear] at h
    exact ⟨hclear, Except.ok.inj h⟩
  · rintro ⟨hclear, rfl⟩
    refine ⟨(), hclear, ?_⟩
    rw [collect_of_clear hclear]
    rfl

/-- The tokens of a value, and its mark if it has one. -/
theorem exists_of_readValue {x : String} {v : Value} (h : readValue x = .ok v) :
    ∃ ts rest, Token.ofText x = ts ++ rest ∧ Clear endsValue 0 (ts.map (·.kind)) ∧
      v.text = Spacing.value.join ts ∧ (rest = [] ∧ v.important = false ∨
        ∃ t, rest = [t] ∧ t.kind = .important ∧ v.important = true) := by
  obtain ⟨_, hend, h⟩ := bind_eq_ok.1 h
  cases h
  have htake : takeValue (Token.ofText x) = ((takeValue (Token.ofText x)).1, []) :=
    Prod.ext rfl (expectEnd_eq_ok.1 hend)
  obtain ⟨ts, rest, hcollect, htext, hrest⟩ := takeValue_eq htake
  have happend := collect_append endsValue 0 (Token.ofText x)
  rw [hcollect] at happend
  refine ⟨ts, rest, happend.symm, ?_, htext, hrest⟩
  rcases hrest with ⟨rfl, _⟩ | ⟨t, rfl, _⟩
  · have hts : ts = Token.ofText x := (List.append_nil ts).symm.trans happend
    rw [hts, ← collect_eq_nil_iff, hcollect]
  · exact (collect_eq_cons hcollect).2.2.clear

theorem readValue_of_clear {x : String} (h : Clear endsValue 0 ((Token.ofText x).map (·.kind))) :
    readValue x = .ok ⟨Spacing.value.join (Token.ofText x), false⟩ := by
  simp only [readValue, takeValue, collect_of_clear h, takeImportant]
  rfl

end TieredStyle.Css
