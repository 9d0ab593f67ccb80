import TieredStyle.Css.Tree.Print
import TieredStyle.Proofs.Tree.OfItems

/-!
# The text of entries

Both formats write the same characters of an entry and differ in the blanks between them, and in the
semicolon after the last declaration of a block.
-/
namespace TieredStyle.Css

namespace Format

/-- What stands before an opening brace, after a colon and before `!important`. -/
def space : Format → List Char
  | .compact => []
  | .pretty => [' ']

def newline : Format → List Char
  | .compact => []
  | .pretty => ['\n']

def margin : Format → Nat → List Char
  | .compact, _ => []
  | .pretty, depth => List.replicate (2 * depth) ' '

/-- What ends a declaration, the last one of its block or another. -/
def terminator : Format → Bool → List Char
  | .compact, true => []
  | .compact, false => [';']
  | .pretty, _ => [';', '\n']

theorem blank_space (f : Format) : ∀ c ∈ f.space, isBlank c = true := by
  cases f <;> exact List.all_eq_true.1 (by decide)

theorem blank_newline (f : Format) : ∀ c ∈ f.newline, isBlank c = true := by
  cases f <;> exact List.all_eq_true.1 (by decide)

theorem blank_margin (f : Format) (depth : Nat) : ∀ c ∈ f.margin depth, isBlank c = true := by
  cases f with
  | compact =>
      intro c hc
      cases hc
  | pretty =>
      intro c hc
      rw [List.eq_of_mem_replicate hc]
      decide

/-- A block with some contents. -/
def block (f : Format) (depth : Nat) (isEmpty : Bool) (contents : List Char) : List Char :=
  f.space ++ '\x7b' ::
    ((if isEmpty then [] else f.newline ++ contents ++ f.margin depth) ++ '\x7d' :: f.newline)

end Format

/-- The mark of an important value. -/
def Value.mark (f : Format) (v : Value) : List Char :=
  if v.important then f.space ++ "!important".toList else []

def Declaration.printed (f : Format) (d : Declaration) : List Char :=
  d.property.toList ++ ':' :: (f.space ++ (d.value.text.toList ++ d.value.mark f))

def printedDeclarations (f : Format) (depth : Nat) : List Declaration → List Char
  | [] => []
  | d :: ds =>
    f.margin depth ++ (d.printed f ++ (f.terminator ds.isEmpty ++ printedDeclarations f depth ds))

/-- The start of an at-rule. -/
def printedAtHead (name params : String) : List Char :=
  '@' :: name.toList ++ (if params = "" then [] else ' ' :: params.toList)

mutual
def Item.printed (f : Format) (depth : Nat) : Item → List Char
  | .rule selector body =>
    f.margin depth ++ (selector.toList ++
      f.block depth body.isEmpty (printedDeclarations f (depth + 1) body))
  | .statement name params => f.margin depth ++ (printedAtHead name params ++ ';' :: f.newline)
  | .descriptors name params body =>
    f.margin depth ++ (printedAtHead name params ++
      f.block depth body.isEmpty (printedDeclarations f (depth + 1) body))
  | .group name params body =>
    f.margin depth ++ (printedAtHead name params ++
      f.block depth body.isEmpty (printedItems f (depth + 1) body))

def printedItems (f : Format) (depth : Nat) : List Item → List Char
  | [] => []
  | item :: items => item.printed f depth ++ printedItems f depth items
end

theorem printedDeclarations_of_isEmpty {f : Format} {depth : Nat} {ds : List Declaration}
    (h : ds.isEmpty = true) : printedDeclarations f depth ds = [] := by
  rw [List.isEmpty_iff.1 h]
  rfl

/-- A declaration of a block stands in front of what ends it. -/
theorem printedDeclarations_cons_append {f : Format} {depth : Nat} {d : Declaration}
    {ds : List Declaration} {x y : List Char}
    (h : f.terminator ds.isEmpty ++ (printedDeclarations f depth ds ++ x) = y) :
    printedDeclarations f depth (d :: ds) ++ x = f.margin depth ++ (d.property.toList ++
      ':' :: (f.space ++ (d.value.text.toList ++ (d.value.mark f ++ y)))) := by
  rw [← h]
  simp [printedDeclarations, Declaration.printed]

/-- A declaration ends with a semicolon or with its block. -/
theorem exists_terminator_eq_cons (f : Format) (depth depth' : Nat) (ds : List Declaration)
    (r : List Char) : ∃ c r', c ∈ [';', '\x7d'] ∧ f.terminator ds.isEmpty ++
      (printedDeclarations f depth ds ++ (f.margin depth' ++ '\x7d' :: r)) = c :: r' := by
  cases f with
  | pretty => exact ⟨';', _, by decide, rfl⟩
  | compact =>
      cases ds with
      | cons d ds => exact ⟨';', _, by decide, rfl⟩
      | nil => exact ⟨'\x7d', _, by decide, rfl⟩

theorem printedItems_of_isEmpty {f : Format} {depth : Nat} {items : List Item}
    (h : items.isEmpty = true) : printedItems f depth items = [] := by
  rw [List.isEmpty_iff.1 h, printedItems]

/-! ## The printed tree -/

theorem toList_atHead (name params : String) :
    (atHead name params).toList = printedAtHead name params := by
  rw [atHead, printedAtHead]
  split <;> simp

theorem Declaration.toList_compact (d : Declaration) : d.compact.toList = d.printed .compact := by
  rw [compact, printed, Value.mark]
  split <;> simp [Format.space]

theorem Declaration.toList_pretty (d : Declaration) :
    d.pretty.toList = d.printed .pretty ++ [';', '\n'] := by
  rw [pretty, printed, Value.mark]
  split <;> simp [Format.space]

theorem toList_indent (depth : Nat) : (indent depth).toList = Format.pretty.margin depth := by
  rw [indent, String.toList_ofList, Format.margin]

theorem Item.isDeclaration_tree (next : Nat) (item : Item) :
    (item.tree next).isDeclaration = false := by
  cases item <;> rfl

theorem isEmpty_declarationTrees (next : Nat) (ds : List Declaration) :
    (declarationTrees next ds).isEmpty = ds.isEmpty := by
  cases ds <;> rfl

theorem isEmpty_itemTrees (next : Nat) (items : List Item) :
    (itemTrees next items).isEmpty = items.isEmpty := by
  cases items with
  | nil => rw [itemTrees]; rfl
  | cons item items => rw [itemTrees]; rfl

theorem toList_compactBody_declarations (next depth : Nat) (ds : List Declaration) :
    (compactBody false (declarationTrees next ds)).toList =
        printedDeclarations .compact depth ds ∧
      (compactBody true (declarationTrees next ds)).toList =
        Format.compact.terminator ds.isEmpty ++ printedDeclarations .compact depth ds := by
  induction ds generalizing next with
  | nil => exact ⟨rfl, rfl⟩
  | cons d ds ih =>
      have hd : (Tree.mk next (.declaration d) none []).isDeclaration = true := rfl
      simp [declarationTrees, compactBody, printedDeclarations, hd, (ih (next + 1)).2, Tree.compact,
        d.toList_compact, Format.margin, Format.terminator]

theorem toList_prettyAll_declarations (next depth : Nat) (ds : List Declaration) :
    (prettyAll depth (declarationTrees next ds)).toList = printedDeclarations .pretty depth ds := by
  induction ds generalizing next with
  | nil => rfl
  | cons d ds ih =>
      simp [declarationTrees, prettyAll, printedDeclarations, ih, Tree.pretty, d.toList_pretty,
        toList_indent, Format.terminator]

mutual
theorem Item.toList_compact (next depth : Nat) (item : Item) :
    (item.tree next).compact.toList = item.printed .compact depth := by
  match item with
  | .rule selector body =>
      have hbody := (toList_compactBody_declarations (next + 2) (depth + 1) body).1
      cases body <;>
        simp_all [Item.tree, Tree.owning, Tree.compact, compactBlock, Item.printed, Format.block,
          Format.space, Format.newline, Format.margin, printedDeclarations]
  | .statement name params =>
      simp [Item.tree, Tree.compact, Item.printed, toList_atHead, Format.newline, Format.margin]
  | .descriptors name params body =>
      have hbody := (toList_compactBody_declarations (next + 2) (depth + 1) body).1
      cases body <;>
        simp_all [Item.tree, Tree.owning, Tree.compact, compactBlock, Item.printed, Format.block,
          Format.space, Format.newline, Format.margin, toList_atHead, printedDeclarations]
  | .group name params body =>
      have hbody := (toList_compactBody_items (next + 2) (depth + 1) body).2
      cases body <;>
        simp_all [Item.tree, Tree.owning, Tree.compact, compactBlock, Item.printed, Format.block,
          Format.space, Format.newline, Format.margin, toList_atHead, printedItems]

theorem toList_compactBody_items (next depth : Nat) (items : List Item) :
    (compactAll (itemTrees next items)).toList = printedItems .compact depth items ∧
      (compactBody false (itemTrees next items)).toList = printedItems .compact depth items := by
  match items with
  | [] => simp [itemTrees, compactAll, compactBody, printedItems]
  | item :: items =>
      have ih := toList_compactBody_items (next + item.count) depth items
      have hitem := item.toList_compact next depth
      simp [itemTrees, compactAll, compactBody, printedItems, ih.1, ih.2, hitem,
        item.isDeclaration_tree]
end

mutual
theorem Item.toList_pretty (next depth : Nat) (item : Item) :
    ((item.tree next).pretty depth).toList = item.printed .pretty depth := by
  match item with
  | .rule selector body =>
      have hbody := toList_prettyAll_declarations (next + 2) (depth + 1) body
      have hempty := isEmpty_declarationTrees (next + 2) body
      cases body <;>
        simp_all [Item.tree, Tree.owning, Tree.pretty, prettyBlock, Tree.children, Item.printed,
          Format.block, Format.space, Format.newline, toList_indent]
  | .statement name params =>
      simp [Item.tree, Tree.pretty, Item.printed, toList_atHead, Format.newline, toList_indent]
  | .descriptors name params body =>
      have hbody := toList_prettyAll_declarations (next + 2) (depth + 1) body
      have hempty := isEmpty_declarationTrees (next + 2) body
      cases body <;>
        simp_all [Item.tree, Tree.owning, Tree.pretty, prettyBlock, Tree.children, Item.printed,
          Format.block, Format.space, Format.newline, toList_indent, toList_atHead]
  | .group name params body =>
      have hbody := toList_prettyAll_items (next + 2) (depth + 1) body
      have hempty := isEmpty_itemTrees (next + 2) body
      cases body <;>
        simp_all [Item.tree, Tree.owning, Tree.pretty, prettyBlock, Tree.children, Item.printed,
          Format.block, Format.space, Format.newline, toList_indent, toList_atHead]

theorem toList_prettyAll_items (next depth : Nat) (items : List Item) :
    (prettyAll depth (itemTrees next items)).toList = printedItems .pretty depth items := by
  match items with
  | [] => simp [itemTrees, prettyAll, printedItems]
  | item :: items =>
      have ih := toList_prettyAll_items (next + item.count) depth items
      have hitem := item.toList_pretty next depth
      simp [itemTrees, prettyAll, printedItems, ih, hitem]
end

theorem toList_print_ofItems (f : Format) (items : List Item) :
    ((Sheet.ofItems items).print f).toList = printedItems f 0 items := by
  rw [Sheet.print, tree_ofItems]
  cases f with
  | compact => exact (toList_compactBody_items 1 0 items).1
  | pretty => exact toList_prettyAll_items 1 0 items

end TieredStyle.Css
