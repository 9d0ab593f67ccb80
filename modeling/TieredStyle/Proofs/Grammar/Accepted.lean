import TieredStyle.Proofs.Grammar.Rest

/-! # What is read is what has a derivation -/
namespace TieredStyle.Css

/-! ## Declarations -/

/-- A declaration that is read takes its value and a semicolon, or stops before a closing brace. -/
theorem takeDeclaration_eq_ok {t : Token} {ts : List Token}
    {p : Parsed Token Declaration ts.length} (h : takeDeclaration t ts = .ok p) :
    t.kind = .ident ∧ ∃ u us, ts = u :: us ∧ u.is .colon = true ∧
      p.value = ⟨t.text, (takeValue us).1⟩ ∧
      ((takeValue us).2 = p.rest ∧ (∀ e ∈ p.rest.head?, e.is .braceClose = true) ∨
        ∃ e, (takeValue us).2 = e :: p.rest ∧ e.is .semicolon = true) := by
  unfold takeDeclaration at h
  split at h
  · cases h
  next hk =>
  refine ⟨by simpa using hk, ?_⟩
  split at h
  · cases h
  next u us =>
  split at h
  next hu =>
    refine ⟨u, us, rfl, hu, ?_⟩
    dsimp only at h
    split at h
    next hv =>
      cases h
      exact ⟨rfl, .inl ⟨hv, fun e he => by cases he⟩⟩
    next e rest hv =>
      split at h
      next he =>
        cases h
        exact ⟨rfl, .inr ⟨e, hv, he⟩⟩
      next =>
        split at h
        next he =>
          cases h
          refine ⟨rfl, .inl ⟨hv, fun e' he' => ?_⟩⟩
          cases he'
          exact he
        next => cases h
  next => cases h

/-- What comes of a declaration once its value is read is told by the token behind that. -/
theorem takeDeclaration_cons {t u e : Token} {ts us : List Token} {value : Value} (ht : t.kind = .ident)
    (hu : u.is .colon = true) (hv : takeValue ts = (value, e :: us)) :
    ∃ h h', takeDeclaration t (u :: ts) =
      if e.is .semicolon then .ok ⟨⟨t.text, value⟩, us, h⟩
      else if e.is .braceClose then .ok ⟨⟨t.text, value⟩, e :: us, h'⟩
      else .error (e.unexpected (.inDeclaration e.text)) := by
  have hle := length_takeValue_le ts
  rw [hv, List.length_cons] at hle
  refine ⟨by simp only [List.length_cons]; omega, by simp only [List.length_cons]; omega, ?_⟩
  unfold takeDeclaration
  simp only [ht, hu, ne_eq, not_true_eq_false, ↓reduceIte]
  split
  next h => rw [hv] at h; cases h
  next h =>
    rw [hv] at h
    cases h
    simp only [hv]

theorem takeDeclaration_of_takeValue {t u e : Token} {ts us : List Token} {value : Value}
    (ht : t.kind = .ident) (hu : u.is .colon = true) (hv : takeValue ts = (value, e :: us)) :
    (e.is .semicolon = true →
      ∃ h, takeDeclaration t (u :: ts) = .ok ⟨⟨t.text, value⟩, us, h⟩) ∧
    (e.is .semicolon = false → e.is .braceClose = true →
      ∃ h, takeDeclaration t (u :: ts) = .ok ⟨⟨t.text, value⟩, e :: us, h⟩) := by
  obtain ⟨hlen, hlen', heq⟩ := takeDeclaration_cons ht hu hv
  constructor
  · intro he
    exact ⟨hlen, by rw [heq, if_pos he]⟩
  · intro hs he
    exact ⟨hlen', by rw [heq, if_neg (by simp [hs]), if_pos he]⟩

theorem declarationsRead_of_take {ts : List Token} {p : Parsed Token (List Declaration) ts.length}
    (h : takeDeclarations ts = .ok p) : DeclarationsRead ts p.value p.rest := by
  match ts with
  | [] =>
      rw [takeDeclarations] at h
      cases h
  | t :: ts =>
      rw [takeDeclarations] at h
      split at h
      next ht =>
        cases h
        exact .close ht
      next ht =>
      split at h
      next hs =>
        obtain ⟨q, hq, h⟩ := bind_eq_ok.1 h
        cases h
        exact .skip hs (declarationsRead_of_take hq)
      next hs =>
        obtain ⟨⟨d, us, hlen⟩, hd, h⟩ := bind_eq_ok.1 h
        obtain ⟨⟨ds, rest, hlen'⟩, hds, h⟩ := bind_eq_ok.1 h
        cases h
        have hds := declarationsRead_of_take hds
        obtain ⟨hk, u, vs, rfl, hu, hv, hr⟩ := takeDeclaration_eq_ok hd
        cases hv
        rcases hr with ⟨hr, hclose⟩ | ⟨e, hr, he⟩
        · cases us with
          | nil => cases hds
          | cons e us => exact .declare hk hu (Prod.ext rfl hr) (.inr (hclose e rfl)) hds
        · exact .declare hk hu (Prod.ext rfl hr) (.inl he) (.skip he hds)
termination_by ts.length
decreasing_by all_goals simp only [List.length_cons]; omega

section

variable {t : Token} {ts : List Token}

theorem takeDeclarations_semicolon (ht : t.is .semicolon = true) :
    takeDeclarations (t :: ts) = (takeDeclarations ts).map (·.widen (Nat.le_succ _)) := by
  have hclose : ¬t.is .braceClose = true := Token.not_is_of_is ht (by decide)
  rw [takeDeclarations, if_neg hclose, if_pos ht]
  rfl

theorem takeDeclarations_cons (hclose : ¬t.is .braceClose = true) (hsemi : ¬t.is .semicolon = true) :
    takeDeclarations (t :: ts) = (takeDeclaration t ts).bind fun p => (takeDeclarations p.rest).bind fun q =>
      .ok ⟨p.value :: q.value, q.rest, by
        have := p.length_rest_le
        have := q.length_rest_le
        simp only [List.length_cons]
        omega⟩ := by
  rw [takeDeclarations, if_neg hclose, if_neg hsemi]
  rfl

end

theorem exists_of_widen {α : Type} {n n' : Nat} {hle : n ≤ n'} {x : Except ParseError (Parsed Token α n)}
    {value : α} {rest : List Token} (h : ∃ hlen, x.map (·.widen hle) = .ok ⟨value, rest, hlen⟩) :
    ∃ hlen, x = .ok ⟨value, rest, hlen⟩ := by
  obtain ⟨_, h⟩ := h
  cases x with
  | error e => cases h
  | ok p =>
      cases h
      exact ⟨_, rfl⟩

theorem DeclarationsRead.take {ts rest : List Token} {ds : List Declaration}
    (h : DeclarationsRead ts ds rest) : ∃ hlen, takeDeclarations ts = .ok ⟨ds, rest, hlen⟩ := by
  induction h with
  | close ht => exact ⟨Nat.le_succ _, by rw [takeDeclarations, if_pos ht]⟩
  | skip ht _ ih =>
      obtain ⟨hlen, ih⟩ := ih
      refine ⟨Nat.le_succ_of_le hlen, ?_⟩
      rw [takeDeclarations_semicolon ht, ih]
      rfl
  | @declare t u e ts us rest value ds ht hu hv he _ ih =>
      have hclose : ¬t.is .braceClose = true := by rw [Token.is_iff, ht]; decide
      have hsemi : ¬t.is .semicolon = true := by rw [Token.is_iff, ht]; decide
      obtain ⟨hpast, hbefore⟩ := takeDeclaration_of_takeValue ht hu hv
      have htake : ∃ vs, (∃ h, takeDeclaration t (u :: ts) = .ok ⟨⟨t.text, value⟩, vs, h⟩) ∧
          ∃ h, takeDeclarations vs = .ok ⟨ds, rest, h⟩ := by
        by_cases hs : e.is .semicolon = true
        · rw [takeDeclarations_semicolon hs] at ih
          exact ⟨us, hpast hs, exists_of_widen ih⟩
        · exact ⟨e :: us, hbefore (by simpa using hs) (he.resolve_left hs), ih⟩
      obtain ⟨vs, ⟨hlen, hd⟩, hlen', hds⟩ := htake
      refine ⟨by simp only [List.length_cons] at hlen ⊢; omega, ?_⟩
      rw [takeDeclarations_cons hclose hsemi, hd]
      simp only [Except.bind, hds]

/-! ## Heads -/

/-- A rule's head goes up to and with its opening brace. -/
theorem takeRuleHead_eq_ok {t : Token} {ts : List Token} {p : Parsed Token Head ts.length}
    (h : takeRuleHead t ts = .ok p) :
    endsHead t.kind = false ∧ ∃ head e, collect endsHead 0 (t :: ts) = (head, e :: p.rest) ∧
      e.is .braceOpen = true ∧ p.value = .rule (Spacing.selector.join head) := by
  unfold takeRuleHead at h
  split at h
  · cases h
  next hk =>
  refine ⟨by simpa using hk, ?_⟩
  dsimp only at h
  split at h
  · cases h
  next e rest hc =>
  split at h
  next he =>
    cases h
    exact ⟨_, e, Prod.ext rfl hc, he, rfl⟩
  next => cases h

/-- What comes of a rule's head is told by the token that stops it. -/
theorem takeRuleHead_cons {t e : Token} {ts head us : List Token} (ht : endsHead t.kind = false)
    (hc : collect endsHead 0 (t :: ts) = (head, e :: us)) :
    ∃ h, takeRuleHead t ts =
      if e.is .braceOpen then .ok ⟨.rule (Spacing.selector.join head), us, h⟩
      else .error (e.unexpected (.expected .braceOpen e.text)) := by
  have hle := length_collect_le endsHead 0 (t :: ts)
  rw [hc, List.length_cons, List.length_cons] at hle
  refine ⟨Nat.le_of_succ_le_succ hle, ?_⟩
  unfold takeRuleHead
  simp only [ht, Bool.false_eq_true, ↓reduceIte]
  split
  next h => rw [hc] at h; cases h
  next h =>
    rw [hc] at h
    cases h
    simp only [hc]

theorem takeRuleHead_of_collect {t e : Token} {ts head us : List Token}
    (ht : endsHead t.kind = false) (hc : collect endsHead 0 (t :: ts) = (head, e :: us))
    (he : e.is .braceOpen = true) :
    ∃ h, takeRuleHead t ts = .ok ⟨.rule (Spacing.selector.join head), us, h⟩ := by
  obtain ⟨hlen, heq⟩ := takeRuleHead_cons ht hc
  exact ⟨hlen, by rw [heq, if_pos he]⟩

/-- An at-rule's head takes an opening brace or a semicolon, or stops before a closing brace or at the
end. -/
theorem takeAtHead_eq_ok {depth : Nat} {t : Token} {ts : List Token}
    {p : Parsed Token Head ts.length} (h : takeAtHead depth t ts = .ok p) :
    ∃ head us, collect endsHead 0 ts = (head, us) ∧
      ((∃ e, us = e :: p.rest ∧ e.is .braceOpen = true ∧
          (holdsItems t.ruleName = true ∧ depth < maxNesting ∧
              p.value = .group t.ruleName (Spacing.params.join head) ∨
            holdsItems t.ruleName = false ∧
              p.value = .descriptors t.ruleName (Spacing.params.join head))) ∨
        (∀ e ∈ us.head?, e.is .braceOpen = false) ∧
          p.value = .statement t.ruleName (Spacing.params.join head) ∧
          (us = p.rest ∨ ∃ e, us = e :: p.rest ∧ e.is .semicolon = true)) := by
  unfold takeAtHead at h
  dsimp only at h
  split at h
  next hc =>
    cases h
    refine ⟨_, [], Prod.ext rfl hc, .inr ⟨fun e he => ?_, rfl, .inl rfl⟩⟩
    cases he
  next e rest hc =>
  refine ⟨_, e :: rest, Prod.ext rfl hc, ?_⟩
  split at h
  next he =>
    split at h
    next hh =>
      split at h
      next => cases h
      next hd =>
        cases h
        exact .inl ⟨e, rfl, he, .inl ⟨hh, Nat.lt_of_not_le hd, rfl⟩⟩
    next hh =>
      cases h
      exact .inl ⟨e, rfl, he, .inr ⟨by simpa [Token.ruleName] using hh, rfl⟩⟩
  next he =>
    have hopen : ∀ e' ∈ (e :: rest).head?, e'.is .braceOpen = false := by
      intro e' he'
      cases he'
      simpa using he
    split at h
    next hs =>
      cases h
      exact .inr ⟨hopen, rfl, .inr ⟨e, rfl, hs⟩⟩
    next hs =>
      cases h
      exact .inr ⟨hopen, rfl, .inl rfl⟩

section

variable {depth : Nat} {t e : Token} {ts head us : List Token}

theorem takeAtHead_nil (depth : Nat) (t : Token) (hc : collect endsHead 0 ts = (head, [])) :
    ∃ h, takeAtHead depth t ts = .ok ⟨.statement t.ruleName (Spacing.params.join head), [], h⟩ := by
  refine ⟨Nat.zero_le _, ?_⟩
  unfold takeAtHead
  dsimp only
  split
  next =>
    rw [hc]
    rfl
  next h => rw [hc] at h; cases h

/-- What comes of an at-rule's head is told by the token that stops it. -/
theorem takeAtHead_cons (depth : Nat) (t : Token) (hc : collect endsHead 0 ts = (head, e :: us)) :
    ∃ h h', takeAtHead depth t ts =
      if e.is .braceOpen then
        if holdsItems t.ruleName then
          if maxNesting ≤ depth then .error (e.unexpected .tooDeep)
          else .ok ⟨.group t.ruleName (Spacing.params.join head), us, h⟩
        else .ok ⟨.descriptors t.ruleName (Spacing.params.join head), us, h⟩
      else if e.is .semicolon then .ok ⟨.statement t.ruleName (Spacing.params.join head), us, h⟩
      else .ok ⟨.statement t.ruleName (Spacing.params.join head), e :: us, h'⟩ := by
  have hle := length_collect_le endsHead 0 ts
  rw [hc] at hle
  refine ⟨Nat.le_of_succ_le hle, hle, ?_⟩
  unfold takeAtHead
  dsimp only
  split
  next h => rw [hc] at h; cases h
  next h =>
    rw [hc] at h
    cases h
    simp only [hc]
    rfl

theorem takeAtHead_group (hc : collect endsHead 0 ts = (head, e :: us))
    (he : e.is .braceOpen = true) (hn : holdsItems t.ruleName = true) (hd : depth < maxNesting) :
    ∃ h, takeAtHead depth t ts = .ok ⟨.group t.ruleName (Spacing.params.join head), us, h⟩ := by
  obtain ⟨hlen, _, heq⟩ := takeAtHead_cons depth t hc
  exact ⟨hlen, by rw [heq, if_pos he, if_pos hn, if_neg (Nat.not_le_of_lt hd)]⟩

theorem takeAtHead_descriptors (depth : Nat) (hc : collect endsHead 0 ts = (head, e :: us))
    (he : e.is .braceOpen = true) (hn : holdsItems t.ruleName = false) :
    ∃ h, takeAtHead depth t ts =
      .ok ⟨.descriptors t.ruleName (Spacing.params.join head), us, h⟩ := by
  obtain ⟨hlen, _, heq⟩ := takeAtHead_cons depth t hc
  exact ⟨hlen, by rw [heq, if_pos he, if_neg (by simp [hn])]⟩

theorem takeAtHead_past_semicolon (depth : Nat) (t : Token)
    (hc : collect endsHead 0 ts = (head, e :: us)) (he : e.is .semicolon = true) :
    ∃ h, takeAtHead depth t ts =
      .ok ⟨.statement t.ruleName (Spacing.params.join head), us, h⟩ := by
  have hopen : ¬e.is .braceOpen = true := Token.not_is_of_is he (by decide)
  obtain ⟨hlen, _, heq⟩ := takeAtHead_cons depth t hc
  exact ⟨hlen, by rw [heq, if_neg hopen, if_pos he]⟩

theorem takeAtHead_before_end (depth : Nat) (t : Token) (hc : collect endsHead 0 ts = (head, us))
    (he : ∀ e ∈ us.head?, e.is .braceOpen = false) (hs : ∀ e ∈ us.head?, e.is .semicolon = false) :
    ∃ h, takeAtHead depth t ts =
      .ok ⟨.statement t.ruleName (Spacing.params.join head), us, h⟩ := by
  cases us with
  | nil => exact takeAtHead_nil depth t hc
  | cons e us =>
      obtain ⟨_, hlen, heq⟩ := takeAtHead_cons depth t hc
      exact ⟨hlen, by rw [heq, if_neg (by simp [he e rfl]), if_neg (by simp [hs e rfl])]⟩

end

/-! ## Entries -/

theorem takeHead_of_rule (depth : Nat) {t : Token} (ht : t.kind ≠ .atKeyword) (ts : List Token) :
    takeHead depth t ts = takeRuleHead t ts := if_neg ht

theorem takeHead_of_atKeyword {depth : Nat} {t : Token} (ht : t.kind = .atKeyword)
    (ts : List Token) : takeHead depth t ts = takeAtHead depth t ts := if_pos ht

theorem endsHead_of_atKeyword {t : Token} (ht : t.kind = .atKeyword) : endsHead t.kind = false := by
  rw [ht]
  rfl

section

variable {t e : Token} {ts head us : List Token}

theorem takeHead_rule (depth : Nat) (hk : t.kind ≠ .atKeyword) (hend : endsHead t.kind = false)
    (hc : collect endsHead 0 (t :: ts) = (head, e :: us)) (he : e.is .braceOpen = true) :
    ∃ h, takeHead depth t ts = .ok ⟨.rule (Spacing.selector.join head), us, h⟩ := by
  rw [takeHead_of_rule depth hk]
  exact takeRuleHead_of_collect hend hc he

theorem takeHead_descriptors (depth : Nat) (hk : t.kind = .atKeyword) (hn : holdsItems t.ruleName = false)
    (hc : collect endsHead 0 ts = (head, e :: us)) (he : e.is .braceOpen = true) :
    ∃ h, takeHead depth t ts = .ok ⟨.descriptors t.ruleName (Spacing.params.join head), us, h⟩ := by
  rw [takeHead_of_atKeyword hk]
  exact takeAtHead_descriptors depth hc he hn

theorem takeHead_group {depth : Nat} (hk : t.kind = .atKeyword) (hn : holdsItems t.ruleName = true)
    (hc : collect endsHead 0 ts = (head, e :: us)) (he : e.is .braceOpen = true) (hd : depth < maxNesting) :
    ∃ h, takeHead depth t ts = .ok ⟨.group t.ruleName (Spacing.params.join head), us, h⟩ := by
  rw [takeHead_of_atKeyword hk]
  exact takeAtHead_group hc he hn hd

/-- A statement ends in front of what stops its head, or behind that if it is a semicolon. -/
theorem takeHead_statement (depth : Nat) (hk : t.kind = .atKeyword) (hc : collect endsHead 0 ts = (head, us))
    (he : ∀ e ∈ us.head?, e.is .braceOpen = false) : ∃ vs,
      (∃ h, takeHead depth t ts = .ok ⟨.statement t.ruleName (Spacing.params.join head), vs, h⟩) ∧
        (vs = us ∨ ∃ e, us = e :: vs ∧ e.is .semicolon = true) := by
  rw [takeHead_of_atKeyword hk]
  by_cases hs : ∀ e ∈ us.head?, e.is .semicolon = false
  · exact ⟨us, takeAtHead_before_end depth t hc he hs, .inl rfl⟩
  · cases us with
    | nil => exact absurd (fun e he => by cases he) hs
    | cons e us =>
        have hsemi : e.is .semicolon = true := by simpa using hs
        exact ⟨us, takeAtHead_past_semicolon depth t hc hsemi, .inr ⟨e, rfl, hsemi⟩⟩

theorem not_mark_of_endsHead (h : endsHead t.kind = false) :
    ¬t.is .braceClose = true ∧ ¬t.is .semicolon = true := by
  constructor
  all_goals
    intro ht
    rw [Token.is_iff.1 ht] at h
    cases h

theorem takeItems_semicolon (depth : Nat) (ht : t.is .semicolon = true) (ts : List Token) :
    takeItems depth (t :: ts) = (takeItems depth ts).map (·.widen (Nat.le_succ _)) := by
  have hclose : ¬t.is .braceClose = true := Token.not_is_of_is ht (by decide)
  rw [takeItems, if_neg hclose, if_pos ht]
  rfl

end

theorem itemsRead_of_take {depth : Nat} {ts : List Token} {p : Parsed Token (List Item) ts.length}
    (h : takeItems depth ts = .ok p) : ItemsRead depth ts p.value p.rest := by
  match ts with
  | [] =>
      rw [takeItems] at h
      split at h
      next hd =>
        cases h
        rw [hd]
        exact .finish
      next => cases h
  | t :: ts =>
      rw [takeItems] at h
      split at h
      next ht =>
        split at h
        · cases h
        next hd =>
          cases h
          exact .close hd ht
      next ht =>
      split at h
      next hs =>
        obtain ⟨q, hq, h⟩ := bind_eq_ok.1 h
        cases h
        exact .skip hs (itemsRead_of_take hq)
      next hs =>
        obtain ⟨⟨head, us, hlen⟩, hh, h⟩ := bind_eq_ok.1 h
        obtain ⟨⟨item, vs, hlen'⟩, hi, h⟩ := bind_eq_ok.1 h
        obtain ⟨⟨items, rest, hlen''⟩, his, h⟩ := bind_eq_ok.1 h
        cases h
        have his := itemsRead_of_take his
        by_cases hk : t.kind = .atKeyword
        · rw [takeHead_of_atKeyword hk] at hh
          obtain ⟨_, ws, hc, hw⟩ := takeAtHead_eq_ok hh
          rcases hw with ⟨e, rfl, he, hw⟩ | ⟨he, hv, hw⟩
          · rcases hw with ⟨hn, hd, hv⟩ | ⟨hn, hv⟩
            · cases hv
              obtain ⟨q, hq, hi⟩ := bind_eq_ok.1 hi
              cases hi
              exact .group hk hn hc he hd (itemsRead_of_take hq) his
            · cases hv
              obtain ⟨q, hq, hi⟩ := bind_eq_ok.1 hi
              cases hi
              exact .descriptors hk hn hc he (declarationsRead_of_take hq) his
          · cases hv
            cases hi
            rcases hw with rfl | ⟨e, rfl, hsemi⟩
            · exact .statement hk hc he his
            · exact .statement hk hc he (.skip hsemi his)
        · rw [takeHead_of_rule depth hk] at hh
          obtain ⟨hend, _, e, hc, he, hv⟩ := takeRuleHead_eq_ok hh
          cases hv
          obtain ⟨q, hq, hi⟩ := bind_eq_ok.1 hi
          cases hi
          exact .rule hk hend hc he (declarationsRead_of_take hq) his
termination_by ts.length
decreasing_by all_goals simp only [List.length_cons]; omega

/-- The entry with this head, after which the tokens `us` stand. -/
def takeBody (depth : Nat) (us : List Token) :
    Head → Except ParseError (Parsed Token Item us.length)
  | .rule selector => return (← takeDeclarations us).map (.rule selector)
  | .statement name params => return .unread (.statement name params) us
  | .descriptors name params => return (← takeDeclarations us).map (.descriptors name params)
  | .group name params => return (← takeItems (depth + 1) us).map (.group name params)

theorem takeBody_of_declarations {depth : Nat} {us vs : List Token} {head : Head}
    {make : List Declaration → Item} {ds : List Declaration}
    (hbody : takeBody depth us head = (do return (← takeDeclarations us).map make))
    (hds : DeclarationsRead us ds vs) : ∃ h, takeBody depth us head = .ok ⟨make ds, vs, h⟩ := by
  obtain ⟨hlen, hds⟩ := hds.take
  refine ⟨hlen, ?_⟩
  rw [hbody, hds]
  rfl

theorem takeBody_of_items {depth : Nat} {us vs : List Token} {body : List Item} (name params : String)
    (hbody : ∃ h, takeItems (depth + 1) us = .ok ⟨body, vs, h⟩) :
    ∃ h, takeBody depth us (.group name params) = .ok ⟨.group name params body, vs, h⟩ := by
  obtain ⟨hlen, hbody⟩ := hbody
  refine ⟨hlen, ?_⟩
  rw [takeBody, hbody]
  rfl

/-- An entry is its head, then its body, and then come the other entries. -/
theorem takeItems_entry {depth : Nat} {t : Token} (ts : List Token) (hclose : ¬t.is .braceClose = true)
    (hsemi : ¬t.is .semicolon = true) : takeItems depth (t :: ts) = (takeHead depth t ts).bind fun p =>
      (takeBody depth p.rest p.value).bind fun q => (takeItems depth q.rest).bind fun r =>
        .ok ⟨q.value :: r.value, r.rest, by
          have := p.length_rest_le
          have := q.length_rest_le
          have := r.length_rest_le
          simp only [List.length_cons]
          omega⟩ := by
  rw [takeItems, if_neg hclose, if_neg hsemi]
  cases takeHead depth t ts with
  | error x => rfl
  | ok p =>
      obtain ⟨head, us, hlen⟩ := p
      cases head <;> rfl

theorem takeItems_cons {depth : Nat} {t : Token} {ts us vs rest : List Token} {head : Head}
    {item : Item} {items : List Item} (ht : endsHead t.kind = false)
    (hh : ∃ h, takeHead depth t ts = .ok ⟨head, us, h⟩)
    (hi : ∃ h, takeBody depth us head = .ok ⟨item, vs, h⟩)
    (his : ∃ h, takeItems depth vs = .ok ⟨items, rest, h⟩) :
    ∃ h, takeItems depth (t :: ts) = .ok ⟨item :: items, rest, h⟩ := by
  obtain ⟨hlen, hh⟩ := hh
  obtain ⟨hlen', hi⟩ := hi
  obtain ⟨hlen'', his⟩ := his
  refine ⟨by simp only [List.length_cons]; omega, ?_⟩
  obtain ⟨hclose, hsemi⟩ := not_mark_of_endsHead ht
  rw [takeItems_entry ts hclose hsemi, hh]
  simp only [Except.bind, hi, his]

theorem ItemsRead.take {depth : Nat} {ts rest : List Token} {items : List Item}
    (h : ItemsRead depth ts items rest) : ∃ hlen, takeItems depth ts = .ok ⟨items, rest, hlen⟩ := by
  induction h with
  | finish => exact ⟨Nat.le_refl _, by rw [takeItems, if_pos rfl]⟩
  | close hd ht => exact ⟨Nat.le_succ _, by rw [takeItems, if_pos ht, if_neg hd]⟩
  | @skip depth t ts rest items ht _ ih =>
      obtain ⟨hlen, ih⟩ := ih
      refine ⟨Nat.le_succ_of_le hlen, ?_⟩
      rw [takeItems_semicolon depth ht, ih]
      rfl
  | @rule depth _ _ _ _ _ _ _ _ _ hk hend hc he hds _ ih =>
      exact takeItems_cons hend (takeHead_rule depth hk hend hc he) (takeBody_of_declarations rfl hds) ih
  | @statement depth t ts head us rest items hk hc he _ ih =>
      obtain ⟨vs, hhead, hvs⟩ := takeHead_statement depth hk hc he
      refine takeItems_cons (endsHead_of_atKeyword hk) hhead ⟨Nat.le_refl _, by rw [takeBody]; rfl⟩ ?_
      rcases hvs with rfl | ⟨e, rfl, hsemi⟩
      · exact ih
      · rw [takeItems_semicolon depth hsemi] at ih
        exact exists_of_widen ih
  | @descriptors depth _ _ _ _ _ _ _ _ _ hk hn hc he hds _ ih =>
      have hhead := takeHead_descriptors depth hk hn hc he
      exact takeItems_cons (endsHead_of_atKeyword hk) hhead (takeBody_of_declarations rfl hds) ih
  | @group depth t _ _ _ _ _ _ _ _ hk hn hc he hd _ _ ihbody ih =>
      have hhead := takeHead_group hk hn hc he hd
      exact takeItems_cons (endsHead_of_atKeyword hk) hhead (takeBody_of_items _ _ ihbody) ih

/-- A text is read as these entries exactly if its tokens have a derivation of them. -/
theorem readItems_eq_ok_iff {s : String} {items : List Item} :
    readItems s = .ok items ↔ ItemsRead 0 (Token.ofText s) items [] := by
  unfold readItems
  rw [bind_eq_ok]
  constructor
  · rintro ⟨p, hp, h⟩
    cases h
    have hread := itemsRead_of_take hp
    rwa [hread.rest_eq_nil rfl] at hread
  · intro h
    obtain ⟨hlen, h⟩ := h.take
    exact ⟨_, h, rfl⟩

end TieredStyle.Css
