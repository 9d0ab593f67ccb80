import TieredStyle.Css.Item

/-!
The nodes of a stylesheet that is edited in place. They are numbered in the order in which they are
made, and none is ever taken away.
-/
namespace TieredStyle.Css

inductive NodeKind
  | stylesheet | block | rule | atRule | declaration
deriving DecidableEq, Inhabited

def NodeKind.name : NodeKind → String
  | .stylesheet => "StyleSheet"
  | .block => "Block"
  | .rule => "Rule"
  | .atRule => "Atrule"
  | .declaration => "Declaration"

/-- A rule or an at-rule names the node that it claims as its block. -/
inductive Node
  | stylesheet
  | block
  | rule (selector : String) (block : Option Nat)
  | atRule (name params : String) (block : Option Nat)
  | declaration (d : Declaration)
deriving DecidableEq, Inhabited

namespace Node

def kind : Node → NodeKind
  | .stylesheet => .stylesheet
  | .block => .block
  | .rule .. => .rule
  | .atRule .. => .atRule
  | .declaration _ => .declaration

/-- Stylesheets and blocks take children. -/
def isContainer : Node → Bool
  | .stylesheet | .block => true
  | _ => false

def block? : Node → Option Nat
  | .rule _ b | .atRule _ _ b => b
  | _ => none

/-- The parameters of an `@media` rule. -/
def media? : Node → Option String
  | .atRule name params _ => if isMedia name then some params else none
  | _ => none

end Node

/-- Why a stylesheet cannot be walked or changed as asked. -/
inductive ShapeError
  /-- The block that the node claims is not its own. -/
  | missingBlock (kind : NodeKind)
  | notAContainer (kind : NodeKind)
  /-- A node of this kind, or one that claims a block already, is no child. -/
  | invalidChild (kind : NodeKind)
  | missingNode
deriving DecidableEq, Inhabited

def ShapeError.message : ShapeError → String
  | .missingBlock kind => kind.name ++ " node has no block"
  | .notAContainer kind => kind.name ++ " node cannot hold children"
  | .invalidChild kind => kind.name ++ " node cannot be appended here"
  | .missingNode => "node does not exist in this AST"

end TieredStyle.Css
