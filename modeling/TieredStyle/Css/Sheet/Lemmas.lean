import TieredStyle.Css.Sheet

/-! What one more node, or another content of a node, does to the rest of a stylesheet. -/
namespace TieredStyle.Css.Sheet

theorem node?_eq_none_iff {s : Sheet} {id : Nat} : s.node? id = none ↔ s.size ≤ id := by
  simp [node?, size]

theorem place?_eq_none_iff {s : Sheet} {id : Nat} : s.place? id = none ↔ s.size ≤ id := by
  simp [place?, size]

theorem slots_ext {s t : Sheet} (h : s.slots = t.slots) : s = t := by
  cases s; cases t; cases h; rfl

/-! ## One more node -/

section push

variable {s : Sheet} {node : Node} {place : Place} {h : place.Fits s.size}

theorem node?_push (id : Nat) :
    (s.push node place h).node? id = if id = s.size then some node else s.node? id := by
  rw [node?, push, Array.getElem?_push, size]
  by_cases he : id = s.slots.size
  · rw [if_pos he, if_pos he]; rfl
  · rw [if_neg he, if_neg he]; rfl

theorem place?_push (id : Nat) :
    (s.push node place h).place? id = if id = s.size then some place else s.place? id := by
  rw [place?, push, Array.getElem?_push, size]
  by_cases he : id = s.slots.size
  · rw [if_pos he, if_pos he]; rfl
  · rw [if_neg he, if_neg he]; rfl

theorem parent?_push (id : Nat) :
    (s.push node place h).parent? id = if id = s.size then place.owner? else s.parent? id := by
  rw [parent?, place?_push]
  split <;> rfl

/-- The new node is the last child of its owner, and all other children stay. -/
theorem children_push (id : Nat) :
    (s.push node place h).children id =
      if place = .child id then s.children id ++ [s.size] else s.children id := by
  have hold : (List.range s.size).filter
      (fun c => (s.push node place h).place? c = some (.child id)) = s.children id := by
    refine List.filter_congr fun c hc => ?_
    rw [place?_push, if_neg (Nat.ne_of_lt (List.mem_range.1 hc))]
  have hnew : (s.push node place h).place? s.size = some place := by rw [place?_push, if_pos rfl]
  rw [children, size_push, List.range_succ, List.filter_append, hold, List.filter_cons, hnew]
  by_cases hp : place = .child id
  · rw [if_pos hp, if_pos (by rw [hp, decide_eq_true rfl])]; rfl
  · rw [if_neg hp, if_neg (by simpa using hp)]; exact List.append_nil _

end push

/-! ## Another content -/

section replace

variable {s t : Sheet} {id : Nat} {node : Node}

theorem replace?_eq_none_iff : s.replace? id node = none ↔ s.size ≤ id := by
  simp [replace?, size]

theorem place?_replace? (h : s.replace? id node = some t) (j : Nat) : t.place? j = s.place? j := by
  simp only [replace?, Option.dite_none_right_eq_some, Option.some.injEq] at h
  obtain ⟨hid, rfl⟩ := h
  simp only [place?, Array.getElem?_set]
  split
  next he => subst he; simp [hid]
  next => rfl

theorem node?_replace? (h : s.replace? id node = some t) (j : Nat) :
    t.node? j = if j = id then some node else s.node? j := by
  simp only [replace?, Option.dite_none_right_eq_some, Option.some.injEq] at h
  obtain ⟨hid, rfl⟩ := h
  simp only [node?, Array.getElem?_set]
  by_cases he : id = j
  · subst he; simp
  · simp [he, Ne.symm he]

theorem size_replace? (h : s.replace? id node = some t) : t.size = s.size := by
  simp only [replace?, Option.dite_none_right_eq_some, Option.some.injEq] at h
  obtain ⟨hid, rfl⟩ := h
  exact Array.size_set hid

theorem parent?_replace? (h : s.replace? id node = some t) (j : Nat) :
    t.parent? j = s.parent? j := by rw [parent?, place?_replace? h, parent?]

theorem children_replace? (h : s.replace? id node = some t) (j : Nat) :
    t.children j = s.children j := by
  simp only [children, size_replace? h, place?_replace? h]

/-- The last content counts. -/
theorem replace?_replace? (h : s.replace? id node = some t) (node' : Node) :
    t.replace? id node' = s.replace? id node' := by
  simp only [replace?, Option.dite_none_right_eq_some, Option.some.injEq] at h
  obtain ⟨hid, rfl⟩ := h
  simp [replace?, hid]

theorem replace?_push (s : Sheet) (node node' : Node) {place : Place} (h : place.Fits s.size) :
    (s.push node place h).replace? s.size node' = some (s.push node' place h) := by
  have hlt : s.size < (s.push node place h).slots.size := s.lt_size_push ..
  rw [replace?, dif_pos hlt]
  refine congrArg some (slots_ext (Array.ext' ?_))
  simp [push, size]

end replace

/-! ## Containers -/

theorem container_eq_ok {s : Sheet} {id : Nat} {c : { c : Nat // c < s.size }}
    (h : s.container id = .ok c) :
    c.1 = id ∧ ∃ node, s.node? id = some node ∧ node.isContainer := by
  unfold container at h
  split at h
  next hid =>
    split at h
    next hc =>
      cases h
      exact ⟨rfl, _, by rw [node?, Array.getElem?_eq_getElem hid]; rfl, hc⟩
    next => cases h
  next => cases h

theorem container_of_isContainer {s : Sheet} {id : Nat} {node : Node} (h : s.node? id = some node)
    (hc : node.isContainer = true) : ∃ hid : id < s.size, s.container id = .ok ⟨id, hid⟩ := by
  obtain ⟨slot, hs, rfl⟩ := Option.map_eq_some_iff.1 h
  obtain ⟨hid, rfl⟩ := Array.getElem?_eq_some_iff.1 hs
  refine ⟨hid, ?_⟩
  rw [container, dif_pos hid, if_pos hc]

theorem container_of_missing {s : Sheet} {id : Nat} (h : s.node? id = none) :
    s.container id = .error .missingNode := by
  have hid : ¬ id < s.slots.size := Nat.not_lt_of_le (node?_eq_none_iff.1 h)
  rw [container, dif_neg hid]

theorem container_of_notContainer {s : Sheet} {id : Nat} {node : Node} (h : s.node? id = some node)
    (hc : node.isContainer = false) : s.container id = .error (.notAContainer node.kind) := by
  obtain ⟨slot, hs, rfl⟩ := Option.map_eq_some_iff.1 h
  obtain ⟨hid, rfl⟩ := Array.getElem?_eq_some_iff.1 hs
  rw [container, dif_pos hid, if_neg (by simp [hc])]

/-! ## Appends -/

theorem Program.append_eq (s : Sheet) (into : Nat) (node : Node) :
    Program.append into node s = match s.container into with
      | .error e => .error e s
      | .ok ⟨c, h⟩ =>
        if node.isContainer || node.block?.isSome then .error (.invalidChild node.kind) s
        else .ok s.size (s.push node (.child c) h) := by
  rw [Program.append, run_get_bind]
  cases s.container into with
  | error e => rfl
  | ok c => cases node.isContainer || node.block?.isSome <;> rfl

theorem Program.appendWithBlock_eq (s : Sheet) (into : Nat) (node : Option Nat → Node) :
    Program.appendWithBlock into node s = match s.container into with
      | .error e => .error e s
      | .ok ⟨c, h⟩ => .ok s.size
          ((s.push (node (some (s.size + 1))) (.child c) h).push .block (.block s.size) (s.lt_size_push ..)) := by
  rw [Program.appendWithBlock, run_get_bind]
  cases s.container into <;> rfl

theorem append_eq_bind (s : Sheet) (into : Nat) (node : Node) : s.append into node = do
    let ⟨c, h⟩ ← s.container into
    if node.isContainer || node.block?.isSome then throw (.invalidChild node.kind)
    return (s.size, s.push node (.child c) h) := by
  rw [append, Program.append_eq]
  cases s.container into with
  | error e => rfl
  | ok c => cases node.isContainer || node.block?.isSome <;> rfl

theorem appendWithBlock_eq_bind (s : Sheet) (into : Nat) (node : Option Nat → Node) : s.appendWithBlock into node = do
    let ⟨c, h⟩ ← s.container into
    return (s.size, (s.push (node (some (s.size + 1))) (.child c) h).push .block (.block s.size)
      (s.lt_size_push ..)) := by
  rw [appendWithBlock, Program.appendWithBlock_eq]
  cases s.container into <;> rfl

theorem appendRule_eq (s : Sheet) (into : Nat) (selector : String) :
    s.appendRule into selector = s.appendWithBlock into (.rule selector) := rfl

theorem appendAtRule_eq (s : Sheet) (into : Nat) (name params : String) :
    s.appendAtRule into name params = s.appendWithBlock into (.atRule name params) := rfl

theorem appendMedia_eq_bind (s : Sheet) (into : Nat) (params : String) : s.appendMedia into params = do
    let (media, s) ← s.appendAtRule into "media" params
    return (← s.blockOf media, s) := by
  rw [appendMedia, Program.appendMedia, appendAtRule]
  cases hrun : Program.appendAtRule into "media" params s with
  | error e t =>
      rw [run_bind_error hrun]
      rfl
  | ok media t =>
      rw [run_bind hrun, run_get_bind]
      cases hblock : t.blockOf media <;> simp only [outcome, bind, Except.bind, hblock] <;> rfl

end TieredStyle.Css.Sheet
