import TieredStyle.Text.Position

/-! Why a text is not CSS that can be read here. -/
namespace TieredStyle.Css
open TieredStyle.Text

/-- At most so many at-rule blocks that hold rules stand inside one another. -/
def maxNesting : Nat := 128

/-- What the grammar asks for at some place. -/
inductive Expectation
  | selector | propertyName | colon | braceOpen | braceClose
deriving DecidableEq, Inhabited

def Expectation.message : Expectation → String
  | .selector => "expected selector"
  | .propertyName => "expected property name"
  | .colon => "expected ':'"
  | .braceOpen => "expected '\x7b'"
  | .braceClose => "expected '\x7d'"

/-- What is wrong with a token, with its text where the message quotes it. -/
inductive Objection
  /-- Another token is asked for. -/
  | expected (wanted : Expectation) (got : String)
  /-- The fragment is over before this token. -/
  | trailing (got : String)
  /-- Neither a semicolon nor a closing brace ends the declaration. -/
  | inDeclaration (got : String)
  /-- A closing brace outside every block. -/
  | unmatchedBrace
  /-- One block of rules too many inside one another. -/
  | tooDeep
deriving DecidableEq, Inhabited

def Objection.message : Objection → String
  | .expected wanted got => wanted.message ++ ", got '" ++ got ++ "'"
  | .trailing got => "unexpected '" ++ got ++ "'"
  | .inDeclaration got => "unexpected '" ++ got ++ "' in declaration"
  | .unmatchedBrace => "unmatched '\x7d'"
  | .tooDeep => "blocks nested deeper than " ++ toString maxNesting

inductive ParseError
  | unexpectedToken (pos : Position) (objection : Objection)
  | unexpectedEnd (wanted : Expectation)
deriving DecidableEq, Inhabited

def ParseError.message : ParseError → String
  | .unexpectedToken pos objection =>
    "unexpected token at line " ++ toString pos.line ++ ", column " ++ toString pos.column ++
      ": " ++ objection.message
  | .unexpectedEnd wanted => "unexpected end of input: " ++ wanted.message

end TieredStyle.Css
