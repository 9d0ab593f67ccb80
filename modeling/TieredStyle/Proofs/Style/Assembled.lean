import TieredStyle.Proofs.Tree.Put

/-!
# Styles assembled node by node

The stylesheet for a style can also be made by appending one node after the other, each of its texts being read
when it is needed. No append fails on the way, and the first text that cannot be read is the same.
-/
namespace TieredStyle
open TieredStyle.Css

/-! ## Loops that read and append -/

/-- Putting things into a stylesheet one after the other is putting them all at once. -/
structure Accumulates {β : Type} (P : Sheet → Prop) (put : Sheet → List β → Sheet) : Prop where
  nil {s : Sheet} : P s → put s [] = s
  keeps {s : Sheet} (bs : List β) : P s → P (put s bs)
  append {s : Sheet} (bs bs' : List β) : P s → put s (bs ++ bs') = put (put s bs) bs'

section

variable {α β : Type} {P : Sheet → Prop} {put : Sheet → List β → Sheet}

theorem Accumulates.flatten (h : Accumulates P put) :
    Accumulates P fun s (bss : List (List β)) => put s bss.flatten where
  nil hs := h.nil hs
  keeps bss hs := h.keeps bss.flatten hs
  append bss bss' hs := by rw [List.flatten_append, h.append _ _ hs]

/-- A loop that reads and puts what it has read puts all of it, unless it stops at the first failure. -/
theorem Accumulates.foldlM_reading (h : Accumulates P put) {f : Sheet → α → Except Error Sheet}
    {g : α → Except ParseError β} {as : List α}
    (hstep : ∀ a ∈ as, ∀ s, P s → f s a = (fun b => put s [b]) <$> reading (g a)) {s : Sheet} (hs : P s) :
    as.foldlM f s = put s <$> reading (as.mapM g) := by
  induction as generalizing s with
  | nil =>
      rw [List.foldlM_nil, List.mapM_nil]
      exact congrArg Except.ok (h.nil hs).symm
  | cons a as ih =>
      obtain ⟨ha, has⟩ := List.forall_mem_cons.1 hstep
      rw [List.foldlM_cons, List.mapM_cons, ha s hs]
      cases g a with
      | error e => rfl
      | ok b =>
          have htail := ih has (h.keeps [b] hs)
          cases hbs : as.mapM g with
          | error e =>
              rw [hbs] at htail
              exact htail
          | ok bs =>
              rw [hbs] at htail
              have hcons := h.append [b] bs hs
              exact htail.trans (congrArg Except.ok hcons.symm)

end

/-! ## Entries at the end of a node -/

namespace Css

theorem itemSlots_append (owner next : Nat) (items items' : List Item) :
    itemSlots owner next (items ++ items') =
      itemSlots owner next items ++ itemSlots owner (next + (itemSlots owner next items).length) items' := by
  induction items generalizing next with
  | nil => simp [itemSlots]
  | cons item items ih => simp [itemSlots, ih, Nat.add_assoc]

namespace Sheet

variable {s : Sheet} {owner : Nat}

/-- Whether the node takes children. -/
def Holding (s : Sheet) (id : Nat) : Prop := ∃ node, s.node? id = some node ∧ node.isContainer = true

/-- The stylesheet with further entries at the end of a node. -/
def hang (s : Sheet) (owner : Nat) (items : List Item) : Sheet :=
  if h : owner < s.size then s.extend (itemSlots owner s.size items) (fitFrom_itemSlots h items) else s

/-- The stylesheet with further declarations at the end of a block. -/
def hangDeclarations (s : Sheet) (block : Nat) (ds : List Declaration) : Sheet :=
  if h : block < s.size then s.extend (declarationSlots block ds) (fitFrom_declarationSlots h ds) else s

theorem Holding.lt (h : s.Holding owner) : owner < s.size := by
  obtain ⟨_, hn, _⟩ := h
  exact lt_size_of_node? hn

theorem Holding.extend (h : s.Holding owner) {l : List Slot} (hfit : FitFrom s.size l) :
    (s.extend l hfit).Holding owner := by
  obtain ⟨node, hn, hc⟩ := h
  exact ⟨node, node?_extend hn, hc⟩

theorem Holding.hang (h : s.Holding owner) (into : Nat) (items : List Item) :
    (s.hang into items).Holding owner := by
  rw [Sheet.hang]
  split
  · exact h.extend _
  · exact h

theorem Holding.hangDeclarations (h : s.Holding owner) (block : Nat) (ds : List Declaration) :
    (s.hangDeclarations block ds).Holding owner := by
  rw [Sheet.hangDeclarations]
  split
  · exact h.extend _
  · exact h

theorem holding_empty : empty.Holding root := ⟨.stylesheet, rfl, rfl⟩

theorem slots_hang (h : s.Holding owner) (items : List Item) :
    (s.hang owner items).slots = s.slots ++ (itemSlots owner s.size items).toArray := by
  rw [hang, dif_pos h.lt, Sheet.extend]

theorem slots_hangDeclarations (h : s.Holding owner) (ds : List Declaration) :
    (s.hangDeclarations owner ds).slots = s.slots ++ (declarationSlots owner ds).toArray := by
  rw [hangDeclarations, dif_pos h.lt, Sheet.extend]

theorem accumulates_hang (owner : Nat) : Accumulates (·.Holding owner) (·.hang owner) where
  nil h := slots_ext (by simp [slots_hang h, itemSlots])
  keeps items h := h.hang owner items
  append items items' h :=
    slots_ext (by simp [slots_hang h, slots_hang (h.hang owner items), itemSlots_append, size])

theorem accumulates_hangDeclarations (block : Nat) :
    Accumulates (·.Holding block) (·.hangDeclarations block) where
  nil h := slots_ext (by simp [slots_hangDeclarations h, declarationSlots])
  keeps ds h := h.hangDeclarations block ds
  append ds ds' h := slots_ext (by
    simp [slots_hangDeclarations h, slots_hangDeclarations (h.hangDeclarations block ds), declarationSlots])

theorem ofItems_eq_hang (items : List Item) : ofItems items = empty.hang root items := by
  rw [hang, dif_pos holding_empty.lt]
  exact ofItems_eq_extend items _

/-! ## What appending comes to -/

theorem append_declaration_eq (h : s.Holding owner) (d : Declaration) :
    s.append owner (.declaration d) = .ok (s.size, s.hangDeclarations owner [d]) := by
  obtain ⟨node, hn, hc⟩ := h
  obtain ⟨hlt, hcontainer⟩ := container_of_isContainer hn hc
  rw [append_eq_bind, hcontainer]
  refine congrArg (fun t => Except.ok (s.size, t)) (slots_ext ?_)
  simp [slots_hangDeclarations ⟨node, hn, hc⟩, declarationSlots, push]

/-- An appended node has a block, and what goes into the block is what the entry holds. -/
theorem appendWithBlock_hang (h : s.Holding owner) (make : Option Nat → Node)
    (hmake : ∀ b, (make b).block? = b) : ∃ t, s.appendWithBlock owner make = .ok (s.size, t) ∧
      t.blockOf s.size = .ok (s.size + 1) ∧ t.Holding (s.size + 1) ∧ t.slots =
        s.slots ++ #[⟨make (some (s.size + 1)), .child owner⟩, ⟨.block, .block s.size⟩] := by
  obtain ⟨node, hn, hc⟩ := h
  obtain ⟨hfit, t, rfl, happend, hblock, hnode⟩ := appendWithBlock_eq hn hc make hmake
  exact ⟨_, happend, hblock, ⟨_, hnode, rfl⟩, by simp [Sheet.extend]⟩

theorem appendRule_hang (h : s.Holding owner) (selector : String) :
    ∃ t, s.appendRule owner selector = .ok (s.size, t) ∧ t.blockOf s.size = .ok (s.size + 1) ∧
      t.Holding (s.size + 1) ∧
      ∀ ds, t.hangDeclarations (s.size + 1) ds = s.hang owner [.rule selector ds] := by
  obtain ⟨t, happend, hblock, hholding, hslots⟩ := appendWithBlock_hang h (.rule selector) fun _ => rfl
  refine ⟨t, happend, hblock, hholding, fun ds => slots_ext ?_⟩
  simp [slots_hangDeclarations hholding, slots_hang h, hslots, itemSlots, Item.slots]

theorem appendMedia_hang (h : s.Holding owner) (params : String) :
    ∃ t, s.appendMedia owner params = .ok (s.size + 1, t) ∧ t.Holding (s.size + 1) ∧
      ∀ items, t.hang (s.size + 1) items = s.hang owner [.group "media" params items] := by
  obtain ⟨t, happend, hblock, hholding, hslots⟩ :=
    appendWithBlock_hang h (.atRule "media" params) fun _ => rfl
  have hsize : t.size = s.size + 2 := by simp [size, hslots]
  refine ⟨t, ?_, hholding, fun items => slots_ext ?_⟩
  · simp only [appendMedia_eq_bind, appendAtRule_eq, happend]
    simp only [bind, Except.bind, hblock]
    rfl
  · simp [slots_hang hholding, slots_hang h, hslots, hsize, itemSlots, Item.slots]

end Sheet
end Css

namespace Style

/-- Appends the declaration of a property to a block. -/
def appendDeclared (block : Nat) (sheet : Sheet) (e : String × String) : Except Error Sheet := do
  let d ← reading (Declaration.read e.1 e.2)
  return (← shaping (sheet.append block (.declaration d))).2

/-- Appends the rule for a state, unless it has no properties. -/
def appendState (selector : String) (container : Nat) (sheet : Sheet) (e : String × Properties) :
    Except Error Sheet := do
  if e.2.isEmpty then return sheet
  let selector ← reading (readSelector (PseudoState.select selector e.1))
  let (rule, sheet) ← shaping (sheet.appendRule container selector)
  e.2.entries.foldlM (appendDeclared (← shaping (sheet.blockOf rule))) sheet

/-- Appends the rules for a tier, in an `@media` rule if the tier has a query. -/
def appendTier (selector : String) (sheet : Sheet) (e : String × States) : Except Error Sheet := do
  if e.2.values.all (·.isEmpty) then return sheet
  match Breakpoint.queryOfKey? e.1 with
  | none => e.2.entries.foldlM (appendState selector Sheet.root) sheet
  | some query =>
    let (block, sheet) ← shaping (sheet.appendMedia Sheet.root (← reading (readParams query)))
    e.2.entries.foldlM (appendState selector block) sheet

/-- The stylesheet for a style under a selector, made node by node. -/
def assemble (s : Style) (selector : String) : Except Error Sheet := do
  let selector ← reading (readSelector selector)
  s.layers.entries.foldlM (appendTier selector) .empty

variable {sheet : Sheet} {σ : String}

theorem foldlM_appendDeclared {block : Nat} (h : sheet.Holding block) (es : List (String × String)) :
    es.foldlM (appendDeclared block) sheet =
      sheet.hangDeclarations block <$> reading (es.mapM fun e => Declaration.read e.1 e.2) := by
  refine (Sheet.accumulates_hangDeclarations block).foldlM_reading (fun e _ s hs => ?_) h
  rw [appendDeclared]
  cases Declaration.read e.1 e.2 with
  | error e => rfl
  | ok d =>
      change (do
        let r ← shaping (s.append block (.declaration d))
        return r.2) = _
      rw [Sheet.append_declaration_eq hs]
      rfl

/-- A rule with its declarations, if they can be read, at the end of the container. -/
theorem appendState_eq {container : Nat} (h : sheet.Holding container) {e : String × Properties}
    (he : e.2.isEmpty = false) : appendState σ container sheet e =
      (fun item => sheet.hang container [item]) <$> reading (ruleOf σ e.1 e.2) := by
  rw [appendState, he]
  cases hselector : readSelector (PseudoState.select σ e.1) with
  | error err =>
      rw [ruleOf, hselector]
      rfl
  | ok selector =>
      obtain ⟨t, happend, hblock, hholding, hhang⟩ := Sheet.appendRule_hang h selector
      have hrule : ruleOf σ e.1 e.2 =
          Item.rule selector <$> e.2.entries.mapM fun e => Declaration.read e.1 e.2 := by
        rw [ruleOf, hselector]
        rfl
      have hfold := foldlM_appendDeclared hholding e.2.entries
      change (do
        let r ← shaping (sheet.appendRule container selector)
        e.2.entries.foldlM (appendDeclared (← shaping (r.2.blockOf r.1))) r.2) = _
      rw [happend]
      change (do
        let block ← shaping (t.blockOf sheet.size)
        e.2.entries.foldlM (appendDeclared block) t) = _
      rw [hblock, hrule]
      refine hfold.trans ?_
      cases e.2.entries.mapM fun e => Declaration.read e.1 e.2 with
      | error err => rfl
      | ok ds => exact congrArg Except.ok (hhang ds)

/-- The rules for the states with properties. -/
def rulesFor (selector : String) (states : States) : Except ParseError (List Item) :=
  (states.entries.filter (!·.2.isEmpty)).mapM fun e => ruleOf selector e.1 e.2

theorem foldlM_appendState {container : Nat} (h : sheet.Holding container) (states : States) :
    states.entries.foldlM (appendState σ container) sheet =
      sheet.hang container <$> reading (rulesFor σ states) := by
  have hskip : states.entries.foldlM (appendState σ container) sheet =
      (states.entries.filter (!·.2.isEmpty)).foldlM (appendState σ container) sheet := by
    rw [List.foldlM_filter]
    congr 1
    funext sheet e
    cases he : e.2.isEmpty with
    | true => simp [appendState, he]
    | false => simp
  rw [hskip]
  refine (Sheet.accumulates_hang container).foldlM_reading (fun e he s hs => ?_) h
  have hne : (!e.2.isEmpty) = true := (List.mem_filter.1 he).2
  exact appendState_eq hs (by simpa using hne)

theorem all_isEmpty_iff {states : States} :
    states.values.all (·.isEmpty) = true ↔ states.entries.filter (!·.2.isEmpty) = [] := by
  simp [OrderedMap.values, List.filter_eq_nil_iff]

theorem itemsOf_of_none {bp : String} (h : Breakpoint.queryOfKey? bp = none) (states : States) :
    itemsOf σ bp states = rulesFor σ states := by
  rw [itemsOf, h]
  exact bind_pure _

theorem itemsOf_of_query {bp query params : String} {states : States}
    (h : Breakpoint.queryOfKey? bp = some query) (hparams : readParams query = .ok params)
    (hne : states.entries.filter (!·.2.isEmpty) ≠ []) :
    itemsOf σ bp states = (fun rules => [.group "media" params rules]) <$> rulesFor σ states := by
  cases hrules : rulesFor σ states with
  | error e => exact bind_eq_error.2 (.inl hrules)
  | ok rules =>
      have hlen := (mapM_eq_ok.1 hrules).length_eq
      have hempty : rules.isEmpty = false := by
        cases rules with
        | nil => exact absurd (List.length_eq_zero_iff.1 hlen) hne
        | cons => rfl
      refine bind_eq_ok.2 ⟨rules, hrules, ?_⟩
      rw [h]
      simp only [hempty, hparams]
      rfl

/-- The entries of a tier, if they can be read, at the end of the root. -/
theorem appendTier_eq (h : sheet.Holding Sheet.root) (e : String × States) :
    appendTier σ sheet e = sheet.hang Sheet.root <$> reading (itemsOf σ e.1 e.2) := by
  rw [appendTier]
  by_cases hempty : e.2.values.all (·.isEmpty) = true
  · rw [if_pos hempty, itemsOf, all_isEmpty_iff.1 hempty, List.mapM_nil]
    cases Breakpoint.queryOfKey? e.1 with
    | none => exact congrArg Except.ok ((Sheet.accumulates_hang Sheet.root).nil h).symm
    | some query => exact congrArg Except.ok ((Sheet.accumulates_hang Sheet.root).nil h).symm
  · rw [if_neg hempty]
    cases hquery : Breakpoint.queryOfKey? e.1 with
    | none =>
        rw [itemsOf_of_none hquery]
        exact foldlM_appendState h e.2
    | some query =>
        -- Here the query is read before the rules, and there after them: the queries of the tiers never fail.
        obtain ⟨b, _, hb⟩ := Option.bind_eq_some_iff.1 hquery
        obtain ⟨params, _, hparams⟩ := Breakpoint.readParams_mediaQuery? hb
        obtain ⟨t, happend, hholding, hhang⟩ := Sheet.appendMedia_hang h params
        rw [itemsOf_of_query hquery hparams fun hnil => hempty (all_isEmpty_iff.2 hnil)]
        change (do
          let params ← reading (readParams query)
          let r ← shaping (sheet.appendMedia Sheet.root params)
          e.2.entries.foldlM (appendState σ r.1) r.2) = _
        rw [hparams]
        change (do
          let r ← shaping (sheet.appendMedia Sheet.root params)
          e.2.entries.foldlM (appendState σ r.1) r.2) = _
        rw [happend]
        refine (foldlM_appendState hholding e.2).trans ?_
        cases rulesFor σ e.2 with
        | error err => rfl
        | ok rules => exact congrArg Except.ok (hhang rules)

/-- A style assembled node by node is what it is projected to, and fails for no other reason. -/
theorem assemble_eq (s : Style) (selector : String) :
    s.assemble selector = reading (s.toSheet selector) := by
  cases hσ : readSelector selector with
  | error e =>
      rw [assemble, toSheet, toItems, hσ]
      rfl
  | ok σ =>
      have hsheet : s.toSheet selector = (fun tiers : List (List Item) => Sheet.ofItems tiers.flatten) <$>
          s.layers.entries.mapM fun e => itemsOf σ e.1 e.2 := by
        rw [toSheet, toItems, hσ]
        change ((_ >>= fun tiers : List (List Item) => pure tiers.flatten) >>= fun items =>
          pure (Sheet.ofItems items)) = _
        simp
      have hfold : s.layers.entries.foldlM (appendTier σ) .empty =
          (fun tiers => Sheet.empty.hang Sheet.root tiers.flatten) <$>
            reading (s.layers.entries.mapM fun e => itemsOf σ e.1 e.2) :=
        (Sheet.accumulates_hang Sheet.root).flatten.foldlM_reading
          (fun e _ s hs => (appendTier_eq hs e).trans (by simp)) Sheet.holding_empty
      rw [assemble, hσ, hsheet]
      refine hfold.trans ?_
      cases s.layers.entries.mapM fun e => itemsOf σ e.1 e.2 with
      | error e => rfl
      | ok tiers => exact congrArg Except.ok (Sheet.ofItems_eq_hang tiers.flatten).symm

end Style
end TieredStyle
