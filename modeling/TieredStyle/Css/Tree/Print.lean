import TieredStyle.Css.Tree

/-! Writing a stylesheet: compact, with no needless blank, or pretty, with a line for each part. -/
namespace TieredStyle.Css

inductive Format
  | compact | pretty
deriving DecidableEq, Inhabited

/-- The start of an at-rule. -/
def atHead (name params : String) : String :=
  "@" ++ name ++ (if params = "" then "" else " " ++ params)

def Declaration.compact (d : Declaration) : String :=
  d.property ++ ":" ++ d.value.text ++ (if d.value.important then "!important" else "")

def Declaration.pretty (d : Declaration) : String :=
  d.property ++ ": " ++ d.value.text ++ (if d.value.important then " !important" else "") ++ ";\n"

mutual
def Tree.compact : Tree → String
  | .mk _ node block children =>
    match node with
    | .stylesheet => compactAll children
    | .block => compactBody false children
    | .rule selector _ => selector ++ "\x7b" ++ compactBlock block ++ "\x7d"
    | .atRule name params none => atHead name params ++ ";"
    | .atRule name params (some _) => atHead name params ++ "\x7b" ++ compactBlock block ++ "\x7d"
    | .declaration d => d.compact

def compactBlock : Option Tree → String
  | none => ""
  | some block => block.compact

def compactAll : List Tree → String
  | [] => ""
  | t :: ts => t.compact ++ compactAll ts

/-- A semicolon stands between two declarations and nowhere else. -/
def compactBody (afterDeclaration : Bool) : List Tree → String
  | [] => ""
  | t :: ts =>
    (if afterDeclaration && t.isDeclaration then ";" else "") ++ t.compact ++
      compactBody t.isDeclaration ts
end

/-- Two spaces for each block around a line. -/
def indent (depth : Nat) : String := String.ofList (List.replicate (2 * depth) ' ')

mutual
def Tree.pretty (depth : Nat) : Tree → String
  | .mk _ node block children =>
    match node with
    | .stylesheet | .block => prettyAll depth children
    | .rule selector _ => indent depth ++ selector ++ prettyBlock depth block
    | .atRule name params none => indent depth ++ atHead name params ++ ";\n"
    | .atRule name params (some _) =>
      indent depth ++ atHead name params ++ prettyBlock depth block
    | .declaration d => indent depth ++ d.pretty

def prettyBlock (depth : Nat) : Option Tree → String
  | none => " \x7b\x7d\n"
  | some block =>
    if block.children.isEmpty then " \x7b\x7d\n"
    else " \x7b\n" ++ block.pretty (depth + 1) ++ indent depth ++ "\x7d\n"

def prettyAll (depth : Nat) : List Tree → String
  | [] => ""
  | t :: ts => t.pretty depth ++ prettyAll depth ts
end

def Tree.print (format : Format) (t : Tree) : String :=
  match format with
  | .compact => t.compact
  | .pretty => t.pretty 0

namespace Sheet

def print (s : Sheet) (format : Format) : String := s.tree.print format

/-- What hangs on a node; nothing is written for a node that does not exist. -/
def printFrom (s : Sheet) (id : Nat) (format : Format) : String :=
  match s.tree? id with
  | none => ""
  | some t => t.print format

end Sheet
end TieredStyle.Css
