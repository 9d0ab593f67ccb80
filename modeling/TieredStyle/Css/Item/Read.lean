import TieredStyle.Css.Item
import TieredStyle.Parsed

/-! The grammar of stylesheets: reading entries, blocks and declarations from tokens. -/
namespace TieredStyle.Css

/-- The declaration that starts with `t`, with the semicolon after it; a closing brace stays. -/
def takeDeclaration (t : Token) (ts : List Token) :
    Except ParseError (Parsed Token Declaration ts.length) :=
  if t.kind ≠ .ident then .error (t.unexpected (.expected .propertyName t.text))
  else match ts with
    | [] => .error (.unexpectedEnd .colon)
    | u :: ts =>
      if u.is .colon then
        let value := (takeValue ts).1
        match h : (takeValue ts).2 with
        | [] => .ok ⟨⟨t.text, value⟩, [], Nat.zero_le _⟩
        | e :: rest =>
          have hle : rest.length + 1 ≤ ts.length := by
            have := length_takeValue_le ts
            rwa [h] at this
          if e.is .semicolon then
            .ok ⟨⟨t.text, value⟩, rest, Nat.le_succ_of_le (Nat.le_of_succ_le hle)⟩
          else if e.is .braceClose then
            .ok ⟨⟨t.text, value⟩, e :: rest, Nat.le_succ_of_le hle⟩
          else .error (e.unexpected (.inDeclaration e.text))
      else .error (u.unexpected (.expected .colon u.text))

/-- The declarations of a block, up to and with its closing brace. -/
def takeDeclarations (ts : List Token) :
    Except ParseError (Parsed Token (List Declaration) ts.length) :=
  match ts with
  | [] => .error (.unexpectedEnd .braceClose)
  | t :: ts =>
    if t.is .braceClose then .ok ⟨[], ts, Nat.le_succ _⟩
    else if t.is .semicolon then do
      return (← takeDeclarations ts).widen (Nat.le_succ _)
    else do
      let ⟨d, rest, h⟩ ← takeDeclaration t ts
      let ⟨ds, rest', h'⟩ ← takeDeclarations rest
      return ⟨d :: ds, rest', by simp; omega⟩
termination_by ts.length

/-- What an entry turns out to be once its head is read, up to and with its opening brace. -/
inductive Head
  | rule (selector : String)
  | statement (name params : String)
  | descriptors (name params : String)
  | group (name params : String)

/-- The head of the at-rule with keyword `t`. A statement ends with a semicolon, before a closing
brace or with the text. -/
def takeAtHead (depth : Nat) (t : Token) (ts : List Token) :
    Except ParseError (Parsed Token Head ts.length) :=
  let name := String.ofList (t.text.toList.drop 1)
  let params := Spacing.params.join (collect endsHead 0 ts).1
  match h : (collect endsHead 0 ts).2 with
  | [] => .ok ⟨.statement name params, [], Nat.zero_le _⟩
  | e :: rest =>
    have hle : rest.length + 1 ≤ ts.length := by
      have := length_collect_le endsHead 0 ts
      rwa [h] at this
    if e.is .braceOpen then
      if holdsItems name then
        if maxNesting ≤ depth then .error (e.unexpected .tooDeep)
        else .ok ⟨.group name params, rest, by omega⟩
      else .ok ⟨.descriptors name params, rest, by omega⟩
    else if e.is .semicolon then .ok ⟨.statement name params, rest, by omega⟩
    else .ok ⟨.statement name params, e :: rest, hle⟩

/-- The head of the rule that starts with `t`. -/
def takeRuleHead (t : Token) (ts : List Token) : Except ParseError (Parsed Token Head ts.length) :=
  if endsHead t.kind then .error (t.unexpected (.expected .selector t.text))
  else
    let selector := Spacing.selector.join (collect endsHead 0 (t :: ts)).1
    match h : (collect endsHead 0 (t :: ts)).2 with
    | [] => .error (.unexpectedEnd .braceOpen)
    | e :: rest =>
      if e.is .braceOpen then .ok ⟨.rule selector, rest, by
        have := length_collect_le endsHead 0 (t :: ts)
        rw [h] at this
        simpa using this⟩
      else .error (e.unexpected (.expected .braceOpen e.text))

def takeHead (depth : Nat) (t : Token) (ts : List Token) :
    Except ParseError (Parsed Token Head ts.length) :=
  if t.kind = .atKeyword then takeAtHead depth t ts else takeRuleHead t ts

/-- The entries of the `depth`-th block inside one another, up to and with its closing brace, or at
depth zero those of the whole stylesheet. -/
def takeItems (depth : Nat) (ts : List Token) :
    Except ParseError (Parsed Token (List Item) ts.length) :=
  match ts with
  | [] => if depth = 0 then .ok ⟨[], [], Nat.le_refl _⟩ else .error (.unexpectedEnd .braceClose)
  | t :: ts =>
    if t.is .braceClose then
      if depth = 0 then .error (t.unexpected .unmatchedBrace) else .ok ⟨[], ts, Nat.le_succ _⟩
    else if t.is .semicolon then do
      return (← takeItems depth ts).widen (Nat.le_succ _)
    else do
      let ⟨head, rest, h⟩ ← takeHead depth t ts
      let ⟨item, rest', h'⟩ ← (match head with
        | .rule selector => return (← takeDeclarations rest).map (.rule selector)
        | .statement name params => return ⟨.statement name params, rest, Nat.le_refl _⟩
        | .descriptors name params =>
          return (← takeDeclarations rest).map (.descriptors name params)
        | .group name params => return (← takeItems (depth + 1) rest).map (.group name params)
        : Except ParseError (Parsed Token Item rest.length))
      let ⟨is, rest'', h''⟩ ← takeItems depth rest'
      return ⟨item :: is, rest'', by simp; omega⟩
termination_by ts.length
decreasing_by all_goals simp only [List.length_cons]; omega

/-- Reads a stylesheet. -/
def readItems (s : String) : Except ParseError (List Item) := do
  return (← takeItems 0 (Token.ofText s)).value

end TieredStyle.Css
