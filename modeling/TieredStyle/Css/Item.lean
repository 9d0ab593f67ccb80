import TieredStyle.Css.Fragment

/-! The syntax tree of a stylesheet: what it says, without a place for each part of it. -/
namespace TieredStyle.Css

/-- Declares the value of a property. -/
structure Declaration where
  property : String
  value : Value
deriving DecidableEq, Inhabited

/-- Reads a declaration from the text of its property and the text of its value. -/
def Declaration.read (property value : String) : Except ParseError Declaration := do
  return ⟨← readProperty property, ← readValue value⟩

/-- An entry of a stylesheet. -/
inductive Item
  /-- A selector with its block. -/
  | rule (selector : String) (body : List Declaration)
  /-- An at-rule without a block. -/
  | statement (name params : String)
  /-- An at-rule whose block holds declarations. -/
  | descriptors (name params : String) (body : List Declaration)
  /-- An at-rule whose block holds entries. -/
  | group (name params : String) (body : List Item)
deriving Inhabited

def lowercase (s : String) : String := String.ofList (s.toList.map Char.toLower)

/-- The at-rules, in any case, whose block holds entries. -/
def holdsItems (name : String) : Bool :=
  ["media", "supports", "container", "layer", "document"].contains (lowercase name)

def isMedia (name : String) : Bool := lowercase name = "media"

end TieredStyle.Css
