import TieredStyle.Css.Comment
import TieredStyle.Css.Lexeme
import TieredStyle.Text.Position

/-! The tokens of a stylesheet: its lexemes with the place of each and the blanks before it. -/
namespace TieredStyle.Css
open TieredStyle.Text

/-- A lexeme at its place; `spaced` tells whether blanks stand right before it. -/
structure Token extends Lexeme where
  spaced : Bool
  start : Position
deriving DecidableEq, Inhabited

namespace Token

/-- The tokens of a text that starts at `pos`, with blanks before it if `spaced`. -/
def scan (pos : Position) (spaced : Bool) : List Char → List Token
  | [] => []
  | c :: cs =>
    if isBlank c then scan (pos.advance c) true cs
    else
      let (kind, n) := munch c cs
      let text := c :: cs.take n
      ⟨⟨kind, String.ofList text⟩, spaced, pos⟩ :: scan (pos.skip text) false (cs.drop n)
termination_by cs => cs.length
decreasing_by all_goals simp only [List.length_cons, List.length_drop]; omega

/-- The tokens of a stylesheet, comments blanked. -/
def ofText (s : String) : List Token := scan {} false (blankComments s.toList)

def is (t : Token) (m : Mark) : Bool := t.kind = .mark m

end Token

/-- The lexemes of a text, in which a comment has no meaning yet. -/
def lexemes (s : String) : List Lexeme := (Token.scan {} false s.toList).map (·.toLexeme)

end TieredStyle.Css
