import TieredStyle.Css.Sheet

/-! What a stylesheet shows from one of its nodes: the tree of its block and its children. -/
namespace TieredStyle.Css

/-- A node with the block that it owns, if it owns one, and its children in order. -/
inductive Tree
  | mk (id : Nat) (node : Node) (block : Option Tree) (children : List Tree)
deriving Inhabited

namespace Tree

def node : Tree → Node
  | mk _ node _ _ => node

def block : Tree → Option Tree
  | mk _ _ block _ => block

def children : Tree → List Tree
  | mk _ _ _ children => children

def isDeclaration (t : Tree) : Bool := t.node.kind = .declaration

end Tree

namespace Sheet

/-- The tree below a node. A block that the node claims but does not own is not in it. -/
def treeAt (s : Sheet) (id : Nat) (h : id < s.size) : Tree :=
  .mk id (s.slots[id]).node
    (match hb : s.block? id with
      | none => none
      | some b => some (s.treeAt b (block?_lt hb).2))
    ((s.children id).attach.map fun c => s.treeAt c.1 (lt_of_mem_children c.2).2)
termination_by s.size - id
decreasing_by
  · have := block?_lt hb
    omega
  · have := lt_of_mem_children c.2
    omega

def tree? (s : Sheet) (id : Nat) : Option Tree :=
  if h : id < s.size then some (s.treeAt id h) else none

def tree (s : Sheet) : Tree := s.treeAt root s.size_pos

end Sheet
end TieredStyle.Css
