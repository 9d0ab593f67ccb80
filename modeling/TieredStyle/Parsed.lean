/-! Results of reading from the front of a list. -/
namespace TieredStyle

/-- What has been read from at most `n` elements, and the elements that are left. -/
structure Parsed (τ : Type) (α : Type) (n : Nat) where
  value : α
  rest : List τ
  length_rest_le : rest.length ≤ n

namespace Parsed

variable {τ α β : Type} {n m : Nat}

/-- One element is read. -/
abbrev one (value : α) (rest : List τ) : Parsed τ α (rest.length + 1) := ⟨value, rest, Nat.le_succ _⟩

/-- Nothing is read. -/
abbrev unread (value : α) (ts : List τ) : Parsed τ α ts.length := ⟨value, ts, Nat.le_refl _⟩

/-- The same result of a longer list. -/
def widen (p : Parsed τ α n) (h : n ≤ m) : Parsed τ α m :=
  ⟨p.value, p.rest, Nat.le_trans p.length_rest_le h⟩

/-- The same result behind one more element. -/
abbrev behindOne (p : Parsed τ α n) : Parsed τ α (n + 1) := p.widen (Nat.le_succ n)

def map (f : α → β) (p : Parsed τ α n) : Parsed τ β n := ⟨f p.value, p.rest, p.length_rest_le⟩

end Parsed
end TieredStyle
