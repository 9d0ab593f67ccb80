import TieredStyle.Json.Literal
import TieredStyle.Json.Numeral

/-! The grammar of JSON, without a look at what the values are. -/
namespace TieredStyle.Json

/-- The text after a key and its colon. -/
def skipKey (cs : List Char) : Option { rest : List Char // rest.length < cs.length } := do
  let ⟨rest₀, h₀⟩ ← takeMark '"' cs
  let ⟨rest₁, h₁⟩ ← skipChars rest₀
  let ⟨rest₂, h₂⟩ ← takeMark ':' rest₁
  return ⟨rest₂, by omega⟩

mutual
/-- The text after a value. -/
def skipValue (cs : List Char) : Option { rest : List Char // rest.length ≤ cs.length } :=
  match h : skipBlanks cs with
  | [] => none
  | c :: rest =>
    have hle : rest.length + 1 ≤ cs.length := by
      have := length_skipBlanks_le cs
      rwa [h] at this
    have hrest : rest.length ≤ cs.length := Nat.le_of_succ_le hle
    if c = '[' then skipBracketed ']' rest hle
    else if c = '{' then skipBracketed '}' rest hle
    else if c = '"' then (skipChars rest).map fun r => ⟨r.1, Nat.le_trans r.2 hrest⟩
    else if c = 'n' then (skipWord "ull".toList rest).map fun r => ⟨r.1, Nat.le_trans r.2 hrest⟩
    else if c = 't' then (skipWord "rue".toList rest).map fun r => ⟨r.1, Nat.le_trans r.2 hrest⟩
    else if c = 'f' then (skipWord "alse".toList rest).map fun r => ⟨r.1, Nat.le_trans r.2 hrest⟩
    else (takeNumeral (c :: rest)).map fun p =>
      ⟨p.rest, Nat.le_trans p.length_rest_le hle⟩
termination_by 3 * cs.length

/-- The text after what stands between brackets, up to and with the closing one. -/
def skipBracketed {n : Nat} (close : Char) (cs : List Char) (h : cs.length + 1 ≤ n) :
    Option { rest : List Char // rest.length ≤ n } :=
  match takeMark close cs with
  | some r => some ⟨r.1, by omega⟩
  | none => (skipSeries close cs).map fun r => ⟨r.1, by omega⟩
termination_by 3 * cs.length + 2

/-- The text after the values of an array, or after the entries of an object, which is the one
that ends with a brace. -/
def skipSeries (close : Char) (cs : List Char) :
    Option { rest : List Char // rest.length ≤ cs.length } := do
  let ⟨rest₀, h₀⟩ ← (if close = '}' then (skipKey cs).map fun r => ⟨r.1, Nat.le_of_lt r.2⟩
    else some ⟨cs, Nat.le_refl _⟩ : Option { rest : List Char // rest.length ≤ cs.length })
  let ⟨rest₁, h₁⟩ ← skipValue rest₀
  match takeMark close rest₁ with
  | some ⟨rest₂, h₂⟩ => return ⟨rest₂, by omega⟩
  | none =>
    let ⟨rest₂, h₂⟩ ← takeMark ',' rest₁
    let ⟨rest₃, h₃⟩ ← skipSeries close rest₂
    return ⟨rest₃, by omega⟩
termination_by 3 * cs.length + 1
end

/-- Whether a text is one value with nothing but blanks around it. -/
def wellFormed (s : String) : Bool :=
  match skipValue s.toList with
  | some ⟨rest, _⟩ => (skipBlanks rest).isEmpty
  | none => false

end TieredStyle.Json
