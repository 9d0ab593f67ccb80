/-! Results of programs that change a state and can fail. -/
namespace TieredStyle

variable {ε σ α β : Type}

/-- What a program gives with the state that it leaves, unless it fails. -/
def outcome : EStateM.Result ε σ α → Except ε (α × σ)
  | .ok a state => .ok (a, state)
  | .error e _ => .error e

/-- The state that a program leaves, in the end or when it fails. -/
def stateAfter : EStateM.Result ε σ α → σ
  | .ok _ state => state
  | .error _ state => state

/-! ## Running a program -/

theorem run_bind {p : EStateM ε σ α} {f : α → EStateM ε σ β} {s t : σ} {a : α} (h : p s = .ok a t) :
    (p >>= f) s = f a t := by
  simp only [bind, EStateM.bind, h]

theorem run_bind_error {p : EStateM ε σ α} {f : α → EStateM ε σ β} {s t : σ} {e : ε} (h : p s = .error e t) :
    (p >>= f) s = .error e t := by
  simp only [bind, EStateM.bind, h]

theorem run_get_bind (f : σ → EStateM ε σ α) (s : σ) : (get >>= f) s = f s s := rfl

end TieredStyle
