import TieredStyle.Css.Node

/-! What can go wrong when a stylesheet is asked or changed with texts that are read first. -/
namespace TieredStyle.Css

inductive Error
  | parse (e : ParseError)
  | shape (e : ShapeError)
deriving DecidableEq, Inhabited

def Error.message : Error → String
  | .parse e => e.message
  | .shape e => e.message

/-- Errors of either cause, from a reading. -/
def reading {α : Type} (x : Except ParseError α) : Except Error α := x.mapError .parse

/-- Errors of either cause, from a stylesheet. -/
def shaping {α : Type} (x : Except ShapeError α) : Except Error α := x.mapError .shape

end TieredStyle.Css
