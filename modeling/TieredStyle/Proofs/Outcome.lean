import Mathlib.Control.Monad.Basic
import Mathlib.Data.List.Forall2
import TieredStyle.Outcome

/-! # Computations that can fail -/
namespace TieredStyle

universe u

variable {ε α β : Type u}

theorem bind_eq_ok {x : Except ε α} {f : α → Except ε β} {b : β} :
    (x >>= f) = .ok b ↔ ∃ a, x = .ok a ∧ f a = .ok b := by
  cases x with
  | error e =>
      constructor
      · intro h
        cases h
      · rintro ⟨a, ha, _⟩
        cases ha
  | ok a =>
      constructor
      · intro h
        exact ⟨a, rfl, h⟩
      · rintro ⟨_, ha, h⟩
        cases ha
        exact h

theorem bind_eq_error {x : Except ε α} {f : α → Except ε β} {e : ε} :
    (x >>= f) = .error e ↔ x = .error e ∨ ∃ a, x = .ok a ∧ f a = .error e := by
  cases x with
  | error e' =>
      constructor
      · intro h
        cases h
        exact .inl rfl
      · rintro (h | ⟨a, ha, _⟩)
        · cases h
          rfl
        · cases ha
  | ok a =>
      constructor
      · intro h
        exact .inr ⟨a, rfl, h⟩
      · rintro (h | ⟨_, ha, h⟩)
        · cases h
        · cases ha
          exact h

theorem map_eq_error {x : Except ε α} {f : α → β} {e : ε} : f <$> x = .error e ↔ x = .error e := by
  cases x with
  | error e' =>
      constructor
      · intro h
        cases h
        rfl
      · intro h
        cases h
        rfl
  | ok a =>
      constructor
      · intro h
        cases h
      · intro h
        cases h

/-- Going through a list succeeds if it does so at each element. -/
theorem mapM_eq_ok {f : α → Except ε β} {as : List α} {bs : List β} :
    as.mapM f = .ok bs ↔ List.Forall₂ (fun a b => f a = .ok b) as bs := by
  induction as generalizing bs with
  | nil =>
      rw [List.mapM_nil]
      constructor
      · intro h
        cases h
        exact .nil
      · intro h
        cases h
        rfl
  | cons a as ih =>
      rw [List.mapM_cons]
      simp only [bind_eq_ok, ih]
      constructor
      · rintro ⟨b, hb, bs, hbs, h⟩
        cases h
        exact .cons hb hbs
      · intro h
        cases h with
        | cons hb hbs => exact ⟨_, hb, _, hbs, rfl⟩

/-- What is on the right of a relation between lists is related to something on the left. -/
theorem exists_of_mem_right {R : α → β → Prop} {as : List α} {bs : List β}
    (h : List.Forall₂ R as bs) {b : β} (hb : b ∈ bs) : ∃ a ∈ as, R a b := by
  induction h with
  | nil => cases hb
  | cons hab _ ih =>
      rcases List.mem_cons.1 hb with rfl | hb
      · exact ⟨_, List.mem_cons_self, hab⟩
      · obtain ⟨a, ha, hR⟩ := ih hb
        exact ⟨a, List.mem_cons_of_mem _ ha, hR⟩

/-- What is related to a list with an element in it comes apart in the same way. -/
theorem forall₂_split {R : α → β → Prop} {as as' : List α} {a : α} {bs : List β}
    (h : List.Forall₂ R (as ++ a :: as') bs) : ∃ pre b post, bs = pre ++ b :: post ∧
      List.Forall₂ R as pre ∧ R a b ∧ List.Forall₂ R as' post := by
  induction as generalizing bs with
  | nil =>
      cases h with
      | cons hab h => exact ⟨[], _, _, rfl, .nil, hab, h⟩
  | cons a' as ih =>
      cases h with
      | cons hab h =>
          obtain ⟨pre, b, post, rfl, hpre, hb, hpost⟩ := ih h
          exact ⟨_ :: pre, b, post, rfl, .cons hab hpre, hb, hpost⟩

/-- If each element is related to something then the list is related to a list. -/
theorem exists_forall₂ {R : α → β → Prop} {as : List α} (h : ∀ a ∈ as, ∃ b, R a b) :
    ∃ bs, List.Forall₂ R as bs := by
  induction as with
  | nil => exact ⟨[], .nil⟩
  | cons a as ih =>
      obtain ⟨b, hb⟩ := h a List.mem_cons_self
      obtain ⟨bs, hbs⟩ := ih fun a ha => h a (List.mem_cons_of_mem _ ha)
      exact ⟨b :: bs, .cons hb hbs⟩

/-! ## Computations side by side -/

/-- The same failure, or results that are related. -/
inductive Likewise (R : α → β → Prop) : Except ε α → Except ε β → Prop
  | ok {a : α} {b : β} : R a b → Likewise R (.ok a) (.ok b)
  | error (e : ε) : Likewise R (.error e) (.error e)

namespace Likewise

variable {ε' γ δ : Type u} {R : α → β → Prop} {S : γ → δ → Prop}

theorem bind {x : Except ε α} {y : Except ε β} {f : α → Except ε γ} {g : β → Except ε δ} (h : Likewise R x y)
    (hfg : ∀ a b, R a b → Likewise S (f a) (g b)) : Likewise S (x >>= f) (y >>= g) := by
  cases h with
  | ok hab => exact hfg _ _ hab
  | error e => exact .error e

theorem mapError {x : Except ε α} {y : Except ε β} (h : Likewise R x y) (f : ε → ε') :
    Likewise R (x.mapError f) (y.mapError f) := by
  cases h with
  | ok hab => exact .ok hab
  | error e => exact .error (f e)

theorem of_eq {x y : Except ε α} (h : x = y) : Likewise Eq x y := by
  subst h
  cases x with
  | ok a => exact .ok rfl
  | error e => exact .error e

end Likewise

section

variable {ε' σ τ : Type} {ε α β : Type}

theorem stateAfter_discard (p : EStateM ε σ α) (s : σ) : stateAfter (discard p s) = stateAfter (p s) := by
  simp only [discard, Functor.discard, Functor.mapConst, Function.comp, EStateM.map]
  cases p s <;> rfl

theorem stateAfter_adaptExcept (f : ε → ε') (p : EStateM ε σ α) (s : σ) :
    stateAfter (p.adaptExcept f s) = stateAfter (p s) := by
  simp only [EStateM.adaptExcept]
  cases p s <;> rfl

/-- Programs with different states that fail alike or give what is related, and whose states are related then. -/
inductive Abreast (Q : α → β → Prop) (R : σ → τ → Prop) : EStateM.Result ε σ α → EStateM.Result ε τ β → Prop
  | ok {a : α} {b : β} {s : σ} {t : τ} : Q a b → R s t → Abreast Q R (.ok a s) (.ok b t)
  | error (e : ε) {s : σ} {t : τ} : R s t → Abreast Q R (.error e s) (.error e t)

namespace Abreast

variable {Q : α → β → Prop} {R : σ → τ → Prop} {s : σ} {t : τ}

theorem stateAfter {r : EStateM.Result ε σ α} {r' : EStateM.Result ε τ β} (h : Abreast Q R r r') :
    R (stateAfter r) (stateAfter r') := by
  cases h with
  | ok _ hR => exact hR
  | error _ hR => exact hR

theorem outcome {r : EStateM.Result ε σ α} {r' : EStateM.Result ε τ β} (h : Abreast Q R r r') :
    Likewise (fun x y => Q x.1 y.1 ∧ R x.2 y.2) (outcome r) (outcome r') := by
  cases h with
  | ok hQ hR => exact .ok ⟨hQ, hR⟩
  | error e _ => exact .error e

theorem bind {γ δ : Type} {S : γ → δ → Prop} {p : EStateM ε σ α} {q : EStateM ε τ β} {f : α → EStateM ε σ γ}
    {g : β → EStateM ε τ δ} (h : Abreast Q R (p s) (q t))
    (hfg : ∀ a b s t, Q a b → R s t → Abreast S R (f a s) (g b t)) : Abreast S R ((p >>= f) s) ((q >>= g) t) := by
  simp only [Bind.bind, EStateM.bind]
  generalize p s = r at h ⊢
  generalize q t = r' at h ⊢
  cases h with
  | ok hQ hR => exact hfg _ _ _ _ hQ hR
  | error e hR => exact .error e hR

theorem adaptExcept {p : EStateM ε σ α} {q : EStateM ε τ β} (h : Abreast Q R (p s) (q t)) (f : ε → ε') :
    Abreast Q R (p.adaptExcept f s) (q.adaptExcept f t) := by
  simp only [EStateM.adaptExcept]
  generalize p s = r at h ⊢
  generalize q t = r' at h ⊢
  cases h with
  | ok hQ hR => exact .ok hQ hR
  | error e hR => exact .error _ hR

theorem discard {p : EStateM ε σ α} {q : EStateM ε τ β} (h : Abreast Q R (p s) (q t)) :
    Abreast Eq R (discard p s) (discard q t) := by
  simp only [Functor.discard, Functor.mapConst, Function.comp, EStateM.map]
  generalize p s = r at h ⊢
  generalize q t = r' at h ⊢
  cases h with
  | ok _ hR => exact .ok rfl hR
  | error e hR => exact .error e hR

theorem liftExcept {x : Except ε α} {y : Except ε β} (h : Likewise Q x y) (hR : R s t) :
    Abreast Q R ((liftExcept x : EStateM ε σ α) s) ((liftExcept y : EStateM ε τ β) t) := by
  cases h with
  | ok hQ => exact .ok hQ hR
  | error e => exact .error e hR

end Abreast

end

end TieredStyle
