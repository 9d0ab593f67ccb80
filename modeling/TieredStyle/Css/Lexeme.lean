/-! The lexemes of CSS: the kinds of words in a stylesheet, and their longest match. -/
namespace TieredStyle.Css

/-- Single characters that have a kind of their own. -/
inductive Mark
  | braceOpen | braceClose | parenOpen | parenClose | bracketOpen | bracketClose
  | colon | semicolon | comma | dot | star | greater | plus | tilde | slash
deriving DecidableEq, Inhabited

def Mark.char : Mark → Char
  | .braceOpen => '{'
  | .braceClose => '}'
  | .parenOpen => '('
  | .parenClose => ')'
  | .bracketOpen => '['
  | .bracketClose => ']'
  | .colon => ':'
  | .semicolon => ';'
  | .comma => ','
  | .dot => '.'
  | .star => '*'
  | .greater => '>'
  | .plus => '+'
  | .tilde => '~'
  | .slash => '/'

def Mark.all : List Mark :=
  [.braceOpen, .braceClose, .parenOpen, .parenClose, .bracketOpen, .bracketClose, .colon,
    .semicolon, .comma, .dot, .star, .greater, .plus, .tilde, .slash]

def Mark.ofChar? (c : Char) : Option Mark := Mark.all.find? (·.char = c)

theorem Mark.ofChar?_char (m : Mark) : Mark.ofChar? m.char = some m := by cases m <;> decide

theorem Mark.char_of_ofChar? {c : Char} {m : Mark} (h : Mark.ofChar? c = some m) : m.char = c := by
  simpa using List.find?_some h

/-- The two quotes that a string literal may stand in. -/
inductive Quote
  | double | single
deriving DecidableEq, Inhabited

def Quote.char : Quote → Char
  | .double => '"'
  | .single => '\''

/-- A character that no pattern accepts is a `delim`, and so is a string literal with no end. -/
inductive Kind
  | important | atKeyword | hash | dimension | number | quoted (q : Quote) | function | ident
  | mark (m : Mark) | delim
deriving DecidableEq, Inhabited

structure Lexeme where
  kind : Kind
  text : String
deriving DecidableEq, Inhabited

/-! ## Character classes -/

/-- Space, tab, line feed, carriage return and form feed stand between lexemes. -/
def isBlank (c : Char) : Bool := c = ' ' || c = '\t' || c = '\n' || c = '\r' || c = '\x0c'

/-- The ASCII letters and the underscore start a name. -/
def isNameStart (c : Char) : Bool := c.isAlpha || c = '_'

/-- The ASCII letters and digits, the underscore and the hyphen go on with one. -/
def isNameChar (c : Char) : Bool := c.isAlphanum || c = '_' || c = '-'

/-! ## Lengths of patterns at the start of a text, zero where the pattern does not match -/

/-- Length of the longest run of characters in the class `p`. -/
def runLength (p : Char → Bool) (cs : List Char) : Nat := (cs.takeWhile p).length

def nameLength : List Char → Nat
  | [] => 0
  | c :: cs => if isNameStart c then runLength isNameChar cs + 1 else 0

/-- A name with at most one hyphen before it. -/
def hyphenNameLength : List Char → Nat
  | '-' :: cs => if nameLength cs = 0 then 0 else nameLength cs + 1
  | cs => nameLength cs

/-- Digits with a fraction or without, or a fraction alone. -/
def numeralLength (cs : List Char) : Nat :=
  let n := runLength Char.isDigit cs
  match cs.drop n with
  | '.' :: ds => if runLength Char.isDigit ds = 0 then n else n + 1 + runLength Char.isDigit ds
  | _ => n

/-- The word `important` in any case. -/
def startsImportant (cs : List Char) : Bool :=
  (cs.take 9).map Char.toLower = ['i', 'm', 'p', 'o', 'r', 't', 'a', 'n', 't']

/-- The rest of a string literal after its opening quote: its length up to and with the closing
quote, or with no closing quote the length of the items before the line feed, the lone backslash or
the end that stops it. A backslash takes the next character with it unless that is a line feed. -/
def literalLength (q : Char) : List Char → Nat × Bool
  | [] => (0, false)
  | '\n' :: _ => (0, false)
  | ['\\'] => (0, false)
  | '\\' :: '\n' :: _ => (0, false)
  | '\\' :: _ :: cs => let (n, closed) := literalLength q cs; (n + 2, closed)
  | c :: cs => if c = q then (1, true) else let (n, closed) := literalLength q cs; (n + 1, closed)

/-! ## The longest match -/

/-- A numeral of which `n` characters have been read, with its unit if it has one. -/
def measured (n : Nat) (cs : List Char) : Kind × Nat :=
  let unit := cs.drop n
  if runLength Char.isAlpha unit ≠ 0 then (.dimension, n + runLength Char.isAlpha unit)
  else if unit.head? = some '%' then (.dimension, n + 1)
  else (.number, n)

/-- A name of which `n` characters have been read; a parenthesis right after it makes a function. -/
def named (n : Nat) (cs : List Char) : Kind × Nat :=
  if (cs.drop n).head? = some '(' then (.function, n + 1) else (.ident, n)

def quotedFrom (q : Quote) (cs : List Char) : Kind × Nat :=
  let (n, closed) := literalLength q.char cs
  (if closed then .quoted q else .delim, n)

/-- The kind of the lexeme that starts with `c`, and how many of the following characters it takes.
An exclamation mark that starts no `!important` takes the blanks after it. -/
def munch (c : Char) (cs : List Char) : Kind × Nat :=
  if c = '!' then
    let n := runLength isBlank cs
    if startsImportant (cs.drop n) then (.important, n + 9) else (.delim, n)
  else if c = '@' then
    if hyphenNameLength cs = 0 then (.delim, 0) else (.atKeyword, hyphenNameLength cs)
  else if c = '#' then
    if runLength isNameChar cs = 0 then (.delim, 0) else (.hash, runLength isNameChar cs)
  else if c = Quote.double.char then quotedFrom .double cs
  else if c = Quote.single.char then quotedFrom .single cs
  else if c = '-' then
    if numeralLength cs ≠ 0 then measured (numeralLength cs) cs
    else if hyphenNameLength cs ≠ 0 then named (hyphenNameLength cs) cs
    else (.delim, 0)
  else if isNameStart c then named (runLength isNameChar cs) cs
  else if numeralLength (c :: cs) ≠ 0 then measured (numeralLength (c :: cs) - 1) cs
  else match Mark.ofChar? c with
    | some m => (.mark m, 0)
    | none => (.delim, 0)

end TieredStyle.Css
