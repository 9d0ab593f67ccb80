import TieredStyle.Css.ParseError
import TieredStyle.Css.Token

/-!
Fragments of CSS that are kept as text: selectors, the parameters of at-rules, property names and
values. Reading a fragment normalizes it: blanks between two tokens become one space, and none where
the blanks mean nothing.
-/
namespace TieredStyle.Css

/-- Where blanks mean nothing depends on what the text is. -/
inductive Spacing
  | selector | params | value
deriving DecidableEq

/-- Blanks beside a separator mean nothing. -/
def Spacing.separates : Spacing → Kind → Bool
  | .selector, .mark .comma | .selector, .mark .greater | .selector, .mark .plus
  | .selector, .mark .tilde => true
  | .params, .mark .comma | .params, .mark .colon => true
  | .value, .mark .comma | .value, .mark .slash => true
  | _, _ => false

def Kind.opens : Kind → Bool
  | .function | .mark .parenOpen | .mark .bracketOpen => true
  | _ => false

def Kind.closes : Kind → Bool
  | .mark .parenClose | .mark .bracketClose => true
  | _ => false

/-- Whether blanks between two tokens of these kinds mean nothing. -/
def Spacing.tight (s : Spacing) (a b : Kind) : Bool :=
  a.opens || b.closes || s.separates a || s.separates b

/-- The space that stays between two tokens. -/
def Spacing.gap (s : Spacing) (a b : Token) : String :=
  if b.spaced && !s.tight a.kind b.kind then " " else ""

/-- The normalized text of a run of tokens. -/
def Spacing.join (s : Spacing) : List Token → String
  | [] => ""
  | [t] => t.text
  | t :: u :: ts => t.text ++ s.gap t u ++ s.join (u :: ts)

/-- Bracket depth after a token; a bracket too many that closes is passed over. -/
def Kind.depthAfter (depth : Nat) (k : Kind) : Nat :=
  if k.opens then depth + 1 else if k.closes then depth - 1 else depth

/-- The tokens before the first one outside brackets that `stop` accepts, and the rest with it. -/
def collect (stop : Kind → Bool) (depth : Nat) : List Token → List Token × List Token
  | [] => ([], [])
  | t :: ts =>
    if depth = 0 ∧ stop t.kind then ([], t :: ts)
    else
      let (taken, rest) := collect stop (t.kind.depthAfter depth) ts
      (t :: taken, rest)

theorem collect_append (stop : Kind → Bool) (depth : Nat) (ts : List Token) :
    (collect stop depth ts).1 ++ (collect stop depth ts).2 = ts := by
  induction ts generalizing depth with
  | nil => rfl
  | cons t ts ih =>
    rw [collect]
    split
    · rfl
    · exact congrArg (t :: ·) (ih _)

theorem length_collect_le (stop : Kind → Bool) (depth : Nat) (ts : List Token) :
    (collect stop depth ts).2.length ≤ ts.length := by
  have h := congrArg List.length (collect_append stop depth ts)
  rw [List.length_append] at h
  omega

/-- A selector and the parameters of an at-rule end before a brace or a semicolon. -/
def endsHead : Kind → Bool
  | .mark .braceOpen | .mark .braceClose | .mark .semicolon => true
  | _ => false

/-- A value ends before these and before its `!important`. -/
def endsValue (k : Kind) : Bool := k = .important || endsHead k

def Token.unexpected (t : Token) (o : Objection) : ParseError := .unexpectedToken t.start o

/-- A fragment stands alone: no token may follow it. -/
def expectEnd : List Token → Except ParseError Unit
  | [] => .ok ()
  | t :: _ => .error (t.unexpected (.trailing t.text))

/-- Reads a selector; it has at least one token. -/
def readSelector (s : String) : Except ParseError String := do
  let (taken, rest) := collect endsHead 0 (Token.ofText s)
  expectEnd rest
  if taken.isEmpty then throw (.unexpectedEnd .selector)
  return Spacing.selector.join taken

/-- Reads the parameters of an at-rule, such as a media query; they may be empty. -/
def readParams (s : String) : Except ParseError String := do
  let (taken, rest) := collect endsHead 0 (Token.ofText s)
  expectEnd rest
  return Spacing.params.join taken

/-- Reads the name of a property, a single identifier. -/
def readProperty (s : String) : Except ParseError String :=
  match Token.ofText s with
  | [] => .error (.unexpectedEnd .propertyName)
  | t :: ts => do
    if t.kind ≠ .ident then throw (t.unexpected (.expected .propertyName t.text))
    expectEnd ts
    return t.text

/-- The text of a value, and whether it is marked `!important`. -/
structure Value where
  text : String
  important : Bool
deriving DecidableEq, Inhabited

/-- The `!important` at the start of a run of tokens, and the rest. -/
def takeImportant : List Token → Bool × List Token
  | [] => (false, [])
  | t :: ts => if t.kind = .important then (true, ts) else (false, t :: ts)

/-- The value at the start of a run of tokens, with its `!important`, and the rest. -/
def takeValue (ts : List Token) : Value × List Token :=
  let (taken, rest) := collect endsValue 0 ts
  let (important, rest) := takeImportant rest
  (⟨Spacing.value.join taken, important⟩, rest)

theorem length_takeImportant_le (ts : List Token) : (takeImportant ts).2.length ≤ ts.length := by
  cases ts with
  | nil => exact Nat.le_refl _
  | cons t ts =>
    rw [takeImportant]
    split
    · exact Nat.le_succ _
    · exact Nat.le_refl _

theorem length_takeValue_le (ts : List Token) : (takeValue ts).2.length ≤ ts.length :=
  Nat.le_trans (length_takeImportant_le _) (length_collect_le endsValue 0 ts)

/-- Reads a value; it may be empty. -/
def readValue (s : String) : Except ParseError Value := do
  let (value, rest) := takeValue (Token.ofText s)
  expectEnd rest
  return value

end TieredStyle.Css
