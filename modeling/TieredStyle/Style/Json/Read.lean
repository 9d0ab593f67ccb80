import TieredStyle.Json.Skip
import TieredStyle.Style
import TieredStyle.Style.Json.Error

/-!
Styles from JSON. A style is an object with the keys of its fields or an array of its fields in
order; keys of no meaning are passed over. The text is read once from left to right, and the first
fault met is the one reported.
-/
namespace TieredStyle.Style
open TieredStyle.Json

/-- Reading from the front of a text. -/
abbrev Taken (α : Type) (cs : List Char) := Except ReadError (Parsed Char α cs.length)

/-- What is wrong with a text that does not go on as JSON does. -/
def require {α : Type} : Option α → Except ReadError α
  | some a => .ok a
  | none => .error .notJson

/-- What the text goes on with, if that can be told. -/
def found? (cs : List Char) : Option Found :=
  match skipBlanks cs with
  | [] => none
  | c :: cs =>
    if c = 'n' then (skipWord "ull".toList cs).map fun _ => .null
    else if c = 't' then (skipWord "rue".toList cs).map fun _ => .boolean true
    else if c = 'f' then (skipWord "alse".toList cs).map fun _ => .boolean false
    else if c = '"' then (takeText cs).map fun p => .text p.value
    else if c = '[' then some .sequence
    else if c = '{' then some .map
    else (takeNumeral (c :: cs)).bind fun p => p.value.value?.map .number

/-- What is wrong with a text that does not go on as wanted. -/
def mismatch (wanted : Wanted) (cs : List Char) : ReadError :=
  match found? cs with
  | some found => .wrongType found wanted
  | none => .notJson

def takeString (cs : List Char) : Taken String cs :=
  match takeMark '"' cs with
  | some ⟨rest, h⟩ => do return (← require (takeText rest)).widen (Nat.le_of_lt h)
  | none => .error (mismatch .text cs)

def takeVersion (cs : List Char) : Taken UInt64 cs :=
  match takeNumeral (skipBlanks cs) with
  | none => .error (mismatch .version cs)
  | some ⟨numeral, rest, h⟩ => do
    match ← require numeral.value? with
    | .natural n => return ⟨UInt64.ofNat n, rest, Nat.le_trans h (length_skipBlanks_le cs)⟩
    | .negative n => throw (.negative n)
    | number => throw (.wrongType (.number number) .version)

/-! ## Objects -/

/-- The members of an object, of which there is at least one more, up to and with the closing brace.
A step takes what comes after the key. -/
def takeMembers {σ : Type} (step : σ → String → (cs : List Char) → Taken σ cs) (state : σ)
    (cs : List Char) : Taken σ cs := do
  let ⟨rest₀, h₀⟩ ← require (takeMark '"' cs)
  let ⟨key, rest₁, h₁⟩ ← require (takeText rest₀)
  let ⟨state, rest₂, h₂⟩ ← step state key rest₁
  match takeMark '}' rest₂ with
  | some ⟨rest₃, h₃⟩ => return ⟨state, rest₃, by omega⟩
  | none =>
    let ⟨rest₃, h₃⟩ ← require (takeMark ',' rest₂)
    return (← takeMembers step state rest₃).widen (by omega)
termination_by cs.length

/-- An object after its opening brace. -/
def takeObject {σ : Type} (step : σ → String → (cs : List Char) → Taken σ cs) (state : σ)
    (cs : List Char) : Taken σ cs :=
  match takeMark '}' cs with
  | some ⟨rest, h⟩ => .ok ⟨state, rest, Nat.le_of_lt h⟩
  | none => takeMembers step state cs

/-- What `take` reads after a colon. -/
def afterColon {α : Type} (take : (cs : List Char) → Taken α cs) (cs : List Char) : Taken α cs := do
  let ⟨rest, h⟩ ← require (takeMark ':' cs)
  return (← take rest).widen (Nat.le_of_lt h)

/-- An object as a map; of a repeated key the last value counts, at the first place. -/
def takeMap {α : Type} (take : (cs : List Char) → Taken α cs) (cs : List Char) :
    Taken (OrderedMap α) cs :=
  match takeMark '{' cs with
  | some ⟨rest, h⟩ => do
    let step (m : OrderedMap α) (key : String) (cs : List Char) : Taken (OrderedMap α) cs := do
      return (← afterColon take cs).map (m.insert key)
    return (← takeObject step ∅ rest).widen (Nat.le_of_lt h)
  | none => .error (mismatch .map cs)

def takeLayers (cs : List Char) : Taken Layers cs := takeMap (takeMap (takeMap takeString)) cs

/-! ## The fields of a style -/

/-- The fields that have been read. -/
structure Fields where
  id : Option String := none
  name : Option String := none
  version : Option UInt64 := none
  layers : Option Layers := none

/-- A member of the object of a style. A field that has been read already is a fault at once. -/
def takeField (fields : Fields) (key : String) (cs : List Char) : Taken Fields cs :=
  match Field.ofKey? key with
  | none => do
    let skip (cs : List Char) : Taken Unit cs := do
      let ⟨rest, h⟩ ← require (skipValue cs)
      return ⟨(), rest, h⟩
    return (← afterColon skip cs).map fun _ => fields
  | some field => do
    match field with
    | .id =>
      if fields.id.isSome then throw (.repeated field)
      return (← afterColon takeString cs).map fun id => { fields with id := some id }
    | .name =>
      if fields.name.isSome then throw (.repeated field)
      return (← afterColon takeString cs).map fun name => { fields with name := some name }
    | .version =>
      if fields.version.isSome then throw (.repeated field)
      return (← afterColon takeVersion cs).map fun v => { fields with version := some v }
    | .layers =>
      if fields.layers.isSome then throw (.repeated field)
      return (← afterColon takeLayers cs).map fun layers => { fields with layers := some layers }

/-- A style of an object after its opening brace. Only the layers have to be there. -/
def takeStyleObject (cs : List Char) : Taken Style cs := do
  let ⟨fields, rest, h⟩ ← takeObject takeField {} cs
  match fields.layers with
  | none => throw .missingLayers
  | some layers =>
    return ⟨⟨fields.id.getD "", fields.name.getD "", fields.version.getD 0, layers⟩, rest, h⟩

/-- The next element of an array, after a comma. -/
def afterComma {α : Type} (take : (cs : List Char) → Taken α cs) (cs : List Char) : Taken α cs :=
  match takeMark ']' cs with
  | some _ => .error .incomplete
  | none => do
    let ⟨rest, h⟩ ← require (takeMark ',' cs)
    if (takeMark ']' rest).isSome then throw .notJson
    return (← take rest).widen (Nat.le_of_lt h)

/-- A style of an array after its opening bracket. -/
def takeStyleArray (cs : List Char) : Taken Style cs := do
  if (takeMark ']' cs).isSome then throw .incomplete
  let ⟨id, rest₀, h₀⟩ ← takeString cs
  let ⟨name, rest₁, h₁⟩ ← afterComma takeString rest₀
  let ⟨version, rest₂, h₂⟩ ← afterComma takeVersion rest₁
  let ⟨layers, rest₃, h₃⟩ ← afterComma takeLayers rest₂
  let ⟨rest₄, h₄⟩ ← require (takeMark ']' rest₃)
  return ⟨⟨id, name, version, layers⟩, rest₄, by omega⟩

def takeStyle (cs : List Char) : Taken Style cs :=
  match takeMark '{' cs with
  | some ⟨rest, h⟩ => do return (← takeStyleObject rest).widen (Nat.le_of_lt h)
  | none =>
    match takeMark '[' cs with
    | some ⟨rest, h⟩ => do return (← takeStyleArray rest).widen (Nat.le_of_lt h)
    | none => .error (mismatch .style cs)

/-- Reads a style from its JSON; nothing but blanks may follow. -/
def ofJson (s : String) : Except ReadError Style := do
  let ⟨style, rest, _⟩ ← takeStyle s.toList
  if (skipBlanks rest).isEmpty then return style else throw .notJson

end TieredStyle.Style
