import TieredStyle.Css.Tree.Print
import TieredStyle.Proofs.Tree.Listing

/-!
# Traversals end

A walk, a print and the way up go from node to node by the numbers that stand in a stylesheet. Here each of
them is a step that takes the traversal of further nodes as it comes, run through a bounded number of levels.
As many levels as there are nodes are enough, whatever the nodes claim: a walk and a print go on only to
nodes that were made later, and the way up goes on only to one that was made before.
-/
namespace TieredStyle.Css

/-- A recursion that is cut off after some levels. -/
def bounded {α β : Type} (cutOff : β) (step : (α → β) → α → β) : Nat → α → β
  | 0, _ => cutOff
  | levels + 1, a => step (bounded cutOff step levels) a

/-- There are enough levels if each step goes on with a smaller measure. -/
theorem bounded_eq {α β : Type} {cutOff : β} {step : (α → β) → α → β} {f : α → β} (measure : α → Nat)
    (h : ∀ a recur, (∀ b, measure b < measure a → recur b = f b) → step recur a = f a)
    {levels : Nat} {a : α} (hlevels : measure a < levels) : bounded cutOff step levels a = f a := by
  induction levels generalizing a with
  | zero => cases hlevels
  | succ levels ih => exact h a _ fun b hb => ih (by omega)

namespace Sheet

variable {s : Sheet}

/-! ## The nodes to go on with -/

theorem Shows.tree?_eq {t : Tree} (h : s.Shows t) : s.tree? t.id = some t := by
  have hid : t.id < s.size := lt_size_of_node? h.node?_eq
  rw [tree?, dif_pos hid, (shows_treeAt t.id hid).unique h (id_treeAt t.id hid)]

theorem Shows.children_eq {t : Tree} (h : s.Shows t) : s.children t.id = t.children.map Tree.id := by
  cases h with
  | mk _ _ hc => exact hc

/-- How far the number of a node is from the last. -/
def later (s : Sheet) (id : Nat) : Nat := s.size - 1 - id

theorem later_lt (s : Sheet) (id : Nat) : s.later id < s.size := by
  have hpos : 0 < s.size := s.size_pos
  simp only [later]
  omega

theorem later_lt_later {id c : Nat} (h : id < c ∧ c < s.size) : s.later c < s.later id := by
  simp only [later]
  omega

/-- What hangs on a node was made later. -/
theorem Shows.later_lt {id : Nat} {node : Node} {block : Option Tree} {children : List Tree}
    (h : s.Shows (.mk id node block children)) :
    (∀ b ∈ block, s.later b.id < s.later id) ∧ ∀ c ∈ children, s.later c.id < s.later id := by
  cases h with
  | mk hn hb hc _ _ =>
      constructor
      · intro b hmem
        apply later_lt_later (block?_lt _)
        rw [hb, hmem, Option.map_some]
      · intro c hmem
        apply later_lt_later (lt_of_mem_children _)
        simpa [hc] using ⟨c, hmem, rfl⟩

/-- A recursion that goes on only to what was made later gives what it should for the tree of each node. -/
theorem bounded_tree {β : Type} {cutOff d : β} {step : (Nat → β) → Nat → β} {g : Tree → β}
    (hmissing : ∀ recur id, s.node? id = none → step recur id = d)
    (hshows : ∀ recur t, s.Shows t →
      (∀ u, s.Shows u → s.later u.id < s.later t.id → recur u.id = g u) → step recur t.id = g t)
    (id : Nat) : bounded cutOff step s.size id = match s.tree? id with
      | none => d
      | some t => g t := by
  apply bounded_eq s.later _ (s.later_lt id)
  intro id recur h
  by_cases hid : id < s.size
  · obtain ⟨t, ht, rfl⟩ : ∃ t, s.Shows t ∧ t.id = id := ⟨_, shows_treeAt id hid, id_treeAt id hid⟩
    rw [ht.tree?_eq]
    apply hshows recur t ht
    intro u hu hlt
    rw [h u.id hlt, hu.tree?_eq]
  · rw [tree?, dif_neg hid]
    exact hmissing recur id (node?_eq_none_iff.2 (by omega))

/-! ## Walks -/

section

variable {σ : Type}

/-- What a walk does at a node, given what it does at others. -/
def walkStep (s : Sheet) (v : Visitor σ) (walk : Nat → EStateM (Option ShapeError) σ Unit) (id : Nat) :
    EStateM (Option ShapeError) σ Unit :=
  match s.node? id with
  | none => throw (some .missingNode)
  | some node => do
    (v.enter id node).adaptExcept some
    if node.block?.isSome then
      match s.blockOf id with
      | .ok b => walk b
      | .error e => throw (some e)
    (s.children id).forM walk
    (v.leave id node).adaptExcept some

theorem adaptExcept_bind {ε ε' α β : Type} (f : ε → ε') (x : EStateM ε σ α) (g : α → EStateM ε σ β) :
    (x >>= g).adaptExcept f = x.adaptExcept f >>= fun a => (g a).adaptExcept f := by
  funext st
  simp only [EStateM.adaptExcept, bind, EStateM.bind]
  cases x st <;> rfl

theorem forM_children {v : Visitor σ} {walk : Nat → EStateM (Option ShapeError) σ Unit} {ts : List Tree}
    (h : ∀ t ∈ ts, walk t.id = (t.walk v).adaptExcept some) :
    (ts.map Tree.id).forM walk = (walkAll v ts).adaptExcept some := by
  induction ts with
  | nil => rfl
  | cons t ts ih =>
      have hrest := ih fun u hu => h u (List.mem_cons_of_mem _ hu)
      simp only [List.forM_eq_forM] at hrest
      simp only [List.forM_eq_forM, List.map_cons, List.forM_cons, walkAll, adaptExcept_bind,
        h t List.mem_cons_self, hrest]

theorem Shows.walkStep_eq {t : Tree} (h : s.Shows t) {v : Visitor σ}
    {recur : Nat → EStateM (Option ShapeError) σ Unit}
    (hrecur : ∀ u, s.Shows u → s.later u.id < s.later t.id →
      recur u.id = (u.walk v).adaptExcept some) :
    s.walkStep v recur t.id = (t.walk v).adaptExcept some := by
  obtain ⟨id, node, block, children⟩ := t
  obtain ⟨hblock, hchildren⟩ := h.later_lt
  cases h with
  | mk hn hb hc hbs hcs =>
      have hall := forM_children fun c hmem => hrecur c (hcs c hmem) (hchildren c hmem)
      simp only [Tree.id, walkStep, hn, Tree.walk, adaptExcept_bind, hc, hall]
      congr 1
      funext _
      cases block with
      | none =>
          simp only [blockOf, hn, hb, Option.map_none]
          split
          · simp only [adaptExcept_bind]
            rfl
          · simp only [adaptExcept_bind]
      | some b =>
          simp only [blockOf, hn, hb, Option.map_some, hrecur b (hbs b rfl) (hblock b rfl)]
          split
          · simp only [adaptExcept_bind]
            rfl
          · simp only [adaptExcept_bind]

theorem bounded_walk (s : Sheet) (v : Visitor σ) (id : Nat) :
    bounded (throw none) (s.walkStep v) s.size id = (s.walkFrom id v).adaptExcept some := by
  rw [bounded_tree (s := s) (d := throw (some .missingNode)) (g := fun t => (t.walk v).adaptExcept some),
    walkFrom]
  · cases s.tree? id <;> rfl
  · intro recur id hn
    rw [walkStep, hn]
  · exact fun recur t h => h.walkStep_eq

end

/-! ## Prints -/

def concat (texts : List String) : String := texts.foldr (· ++ ·) ""

/-- The texts of the children of a block, each with whether it is a declaration. -/
def joinBody (afterDeclaration : Bool) : List (Bool × String) → String
  | [] => ""
  | (isDeclaration, text) :: rest =>
    (if afterDeclaration && isDeclaration then ";" else "") ++ text ++ joinBody isDeclaration rest

def isDeclaration (s : Sheet) (id : Nat) : Bool := (s.node? id).any (·.kind = .declaration)

/-- What is printed for a node, given what is printed for others. -/
def compactStep (s : Sheet) (print : Nat → Option String) (id : Nat) : Option String :=
  let block : Option String :=
    match s.block? id with
    | none => some ""
    | some b => print b
  match s.node? id with
  | none => some ""
  | some .stylesheet => concat <$> (s.children id).mapM print
  | some .block => joinBody false <$> (s.children id).mapM fun c => (s.isDeclaration c, ·) <$> print c
  | some (.rule selector _) => (selector ++ "\x7b" ++ · ++ "\x7d") <$> block
  | some (.atRule name params none) => some (atHead name params ++ ";")
  | some (.atRule name params (some _)) => (atHead name params ++ "\x7b" ++ · ++ "\x7d") <$> block
  | some (.declaration d) => some d.compact

/-- What is printed for a node at a depth, given what is printed for others. -/
def prettyStep (s : Sheet) (print : Nat → Nat → Option String) (id depth : Nat) : Option String :=
  let block : Option String :=
    match s.block? id with
    | none => some " \x7b\x7d\n"
    | some b =>
      if (s.children b).isEmpty then some " \x7b\x7d\n"
      else (" \x7b\n" ++ · ++ indent depth ++ "\x7d\n") <$> print b (depth + 1)
  match s.node? id with
  | none => some ""
  | some .stylesheet | some .block => concat <$> (s.children id).mapM (print · depth)
  | some (.rule selector _) => (indent depth ++ selector ++ ·) <$> block
  | some (.atRule name params none) => some (indent depth ++ atHead name params ++ ";\n")
  | some (.atRule name params (some _)) => (indent depth ++ atHead name params ++ ·) <$> block
  | some (.declaration d) => some (indent depth ++ d.pretty)

theorem mapM_children {α : Type} {p : Nat → Option α} {f : Tree → α} {ts : List Tree}
    (h : ∀ t ∈ ts, p t.id = some (f t)) : (ts.map Tree.id).mapM p = some (ts.map f) := by
  induction ts with
  | nil => rfl
  | cons t ts ih =>
      simp [h t List.mem_cons_self, ih fun u hu => h u (List.mem_cons_of_mem _ hu)]

theorem concat_compact (ts : List Tree) : concat (ts.map Tree.compact) = compactAll ts := by
  induction ts with
  | nil => rfl
  | cons t ts ih => simpa [concat, compactAll] using ih

theorem concat_pretty (depth : Nat) (ts : List Tree) :
    concat (ts.map (Tree.pretty depth)) = prettyAll depth ts := by
  induction ts with
  | nil => rfl
  | cons t ts ih => simpa [concat, prettyAll] using ih

theorem joinBody_compact (after : Bool) (ts : List Tree) :
    joinBody after (ts.map fun t => (t.isDeclaration, t.compact)) = compactBody after ts := by
  induction ts generalizing after with
  | nil => rfl
  | cons t ts ih => simp [joinBody, compactBody, ih]

theorem Shows.isDeclaration_eq {t : Tree} (h : s.Shows t) : s.isDeclaration t.id = t.isDeclaration := by
  simp [isDeclaration, h.node?_eq, Tree.isDeclaration]

theorem Shows.compactStep_eq {t : Tree} (h : s.Shows t) {recur : Nat → Option String}
    (hrecur : ∀ u, s.Shows u → s.later u.id < s.later t.id → recur u.id = some u.compact) :
    s.compactStep recur t.id = some t.compact := by
  obtain ⟨id, node, block, children⟩ := t
  obtain ⟨hblock, hchildren⟩ := h.later_lt
  cases h with
  | mk hn hb hc hbs hcs =>
      have hprint : ∀ c ∈ children, recur c.id = some c.compact := fun c hmem =>
        hrecur c (hcs c hmem) (hchildren c hmem)
      have hbody : (children.map Tree.id).mapM (fun c => (s.isDeclaration c, ·) <$> recur c) =
          some (children.map fun c => (c.isDeclaration, c.compact)) := by
        apply mapM_children
        intro c hmem
        simp [hprint c hmem, (hcs c hmem).isDeclaration_eq]
      have hown : (match s.block? id with
          | none => some ""
          | some b => recur b) = some (compactBlock block) := by
        cases block with
        | none => simp [hb, compactBlock]
        | some b => simp [hb, compactBlock, hrecur b (hbs b rfl) (hblock b rfl)]
      simp only [compactStep, Tree.id, hn, hc, hown]
      cases node with
      | stylesheet => simp [mapM_children hprint, concat_compact, Tree.compact]
      | block =>
          rw [hbody]
          simp [joinBody_compact, Tree.compact]
      | rule selector b => rfl
      | atRule name params b => cases b <;> rfl
      | declaration d => rfl

theorem Shows.prettyStep_eq {t : Tree} (h : s.Shows t) {recur : Nat → Nat → Option String}
    (hrecur : ∀ u, s.Shows u → s.later u.id < s.later t.id →
      recur u.id = fun depth => some (u.pretty depth)) :
    s.prettyStep recur t.id = fun depth => some (t.pretty depth) := by
  funext depth
  obtain ⟨id, node, block, children⟩ := t
  obtain ⟨hblock, hchildren⟩ := h.later_lt
  cases h with
  | mk hn hb hc hbs hcs =>
      have hall : (children.map Tree.id).mapM (recur · depth) =
          some (children.map (Tree.pretty depth)) := by
        apply mapM_children
        intro c hmem
        rw [hrecur c (hcs c hmem) (hchildren c hmem)]
      have hown : (match s.block? id with
          | none => some " \x7b\x7d\n"
          | some b =>
            if (s.children b).isEmpty then some " \x7b\x7d\n"
            else (" \x7b\n" ++ · ++ indent depth ++ "\x7d\n") <$> recur b (depth + 1)) =
          some (prettyBlock depth block) := by
        cases block with
        | none => simp [hb, prettyBlock]
        | some b =>
            simp only [hb, Option.map_some, (hbs b rfl).children_eq, List.isEmpty_map, prettyBlock,
              hrecur b (hbs b rfl) (hblock b rfl)]
            split <;> rfl
      simp only [prettyStep, Tree.id, hn, hc, hown]
      cases node with
      | stylesheet => simp [hall, concat_pretty, Tree.pretty]
      | block => simp [hall, concat_pretty, Tree.pretty]
      | rule selector b => rfl
      | atRule name params b => cases b <;> rfl
      | declaration d => rfl

/-- A print by numbers through as many levels as there are nodes. -/
def boundedPrint (s : Sheet) (format : Format) (id : Nat) : Option String :=
  match format with
  | .compact => bounded none s.compactStep s.size id
  | .pretty => bounded (fun _ => none) s.prettyStep s.size id 0

theorem boundedPrint_eq (s : Sheet) (format : Format) (id : Nat) :
    s.boundedPrint format id = some (s.printFrom id format) := by
  cases format with
  | compact =>
      rw [boundedPrint, bounded_tree (s := s) (d := some "") (g := fun t => some t.compact), printFrom]
      · cases s.tree? id <;> rfl
      · intro recur id hn
        simp [compactStep, hn]
      · exact fun recur t h => h.compactStep_eq
  | pretty =>
      rw [boundedPrint, bounded_tree (s := s) (d := fun _ => some "")
        (g := fun t depth => some (t.pretty depth)), printFrom]
      · cases s.tree? id <;> rfl
      · intro recur id hn
        funext depth
        simp [prettyStep, hn]
      · exact fun recur t h => h.prettyStep_eq

/-! ## The way up -/

def ancestorsStep (s : Sheet) (up : Nat → Option (List Nat)) (id : Nat) : Option (List Nat) :=
  match s.parent? id with
  | none => some []
  | some p => (p :: ·) <$> up p

theorem bounded_ancestors (s : Sheet) (id : Nat) :
    bounded none s.ancestorsStep s.size id = some (s.ancestors id) := by
  have hpos : 0 < s.size := s.size_pos
  apply bounded_eq (fun id => if id < s.size then id else 0)
  · intro id recur h
    cases hp : s.parent? id with
    | none => simp [ancestorsStep, hp, ancestors_root hp]
    | some p =>
        obtain ⟨hlt, hid⟩ := parent_lt hp
        have hup : recur p = some (s.ancestors p) := by
          apply h
          rw [if_pos hid, if_pos (by omega)]
          exact hlt
        simp [ancestorsStep, hp, hup, ancestors_of_parent? hp]
  · split <;> omega

end Sheet
end TieredStyle.Css
