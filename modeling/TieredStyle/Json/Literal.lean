import TieredStyle.Parsed

/-! The pieces that JSON texts are made of: blanks, words, strings. -/
namespace TieredStyle.Json

/-- Space, tab, line feed and carriage return stand between the pieces. -/
def isBlank (c : Char) : Bool := c = ' ' || c = '\t' || c = '\n' || c = '\r'

def skipBlanks (cs : List Char) : List Char := cs.dropWhile isBlank

theorem length_skipBlanks_le (cs : List Char) : (skipBlanks cs).length ≤ cs.length :=
  (List.dropWhile_suffix _).length_le

/-- The text after blanks and a given character. -/
def takeMark (c : Char) (cs : List Char) : Option { rest : List Char // rest.length < cs.length } :=
  match h : skipBlanks cs with
  | [] => none
  | d :: rest =>
    if d = c then some ⟨rest, by
      have := length_skipBlanks_le cs
      rwa [h] at this⟩
    else none

/-- The text after a given word. -/
def skipWord (word cs : List Char) : Option { rest : List Char // rest.length ≤ cs.length } :=
  if word.isPrefixOf cs then some ⟨cs.drop word.length, by simp⟩ else none

/-! ## Strings -/

def hexDigit? (c : Char) : Option Nat :=
  if c.isDigit then some (c.toNat - '0'.toNat)
  else if 'a' ≤ c ∧ c ≤ 'f' then some (c.toNat - 'a'.toNat + 10)
  else if 'A' ≤ c ∧ c ≤ 'F' then some (c.toNat - 'A'.toNat + 10)
  else none

/-- The number that four hexadecimal digits stand for. -/
def unit? (a b c d : Char) : Option Nat := do
  return (((← hexDigit? a) * 16 + (← hexDigit? b)) * 16 + (← hexDigit? c)) * 16 + (← hexDigit? d)

/-- The character for a letter after a backslash. -/
def shortEscape? (c : Char) : Option Char :=
  match c with
  | '"' => some '"'
  | '\\' => some '\\'
  | '/' => some '/'
  | 'b' => some '\x08'
  | 'f' => some '\x0c'
  | 'n' => some '\n'
  | 'r' => some '\r'
  | 't' => some '\t'
  | _ => none

/-- The character that the text after `\u` stands for: four digits, or two groups of four that are
a high and a low surrogate. A surrogate without its partner stands for nothing. -/
def takeUnicode (cs : List Char) : Option (Parsed Char Char cs.length) :=
  match cs with
  | a :: b :: c :: d :: rest => do
    let high ← unit? a b c d
    if 0xDC00 ≤ high ∧ high ≤ 0xDFFF then none
    else if 0xD800 ≤ high ∧ high ≤ 0xDBFF then
      match hr : rest with
      | '\\' :: 'u' :: a :: b :: c :: d :: rest' => do
        let low ← unit? a b c d
        if 0xDC00 ≤ low ∧ low ≤ 0xDFFF then
          some ⟨Char.ofNat (0x10000 + (high - 0xD800) * 0x400 + (low - 0xDC00)), rest',
            by simp only [hr, List.length_cons]; omega⟩
        else none
      | _ => none
    else some ⟨Char.ofNat high, rest, by simp only [List.length_cons]; omega⟩
  | _ => none

/-- The character that the text after a backslash stands for. -/
def takeEscape (cs : List Char) : Option (Parsed Char Char cs.length) :=
  match cs with
  | [] => none
  | c :: cs =>
    if c = 'u' then (takeUnicode cs).map (·.widen (Nat.le_succ _))
    else (shortEscape? c).map fun x => ⟨x, cs, Nat.le_succ _⟩

/-- The characters of a string after its opening quote, up to and with the closing one. -/
def takeChars (cs : List Char) : Option (Parsed Char (List Char) cs.length) :=
  match cs with
  | [] => none
  | c :: cs =>
    if c = '"' then some ⟨[], cs, Nat.le_succ _⟩
    else if c = '\\' then do
      let ⟨x, rest, h⟩ ← takeEscape cs
      let ⟨xs, rest', h'⟩ ← takeChars rest
      some ⟨x :: xs, rest', by simp only [List.length_cons]; omega⟩
    else if c.toNat < 0x20 then none
    else do
      let ⟨xs, rest, h⟩ ← takeChars cs
      some ⟨c :: xs, rest, by simp only [List.length_cons]; omega⟩
termination_by cs.length

def takeText (cs : List Char) : Option (Parsed Char String cs.length) :=
  (takeChars cs).map (·.map String.ofList)

/-- The text after a string whose escapes are well formed, whatever they stand for. -/
def skipChars (cs : List Char) : Option { rest : List Char // rest.length ≤ cs.length } :=
  match cs with
  | [] => none
  | c :: cs =>
    if c = '"' then some ⟨cs, Nat.le_succ _⟩
    else if c = '\\' then
      match cs with
      | 'u' :: a :: b :: c :: d :: cs => do
        let _ ← unit? a b c d
        let ⟨rest, h⟩ ← skipChars cs
        return ⟨rest, by simp only [List.length_cons]; omega⟩
      | c :: cs => do
        let _ ← shortEscape? c
        let ⟨rest, h⟩ ← skipChars cs
        return ⟨rest, by simp only [List.length_cons]; omega⟩
      | [] => none
    else if c.toNat < 0x20 then none
    else do
      let ⟨rest, h⟩ ← skipChars cs
      return ⟨rest, Nat.le_succ_of_le h⟩
termination_by cs.length

end TieredStyle.Json
