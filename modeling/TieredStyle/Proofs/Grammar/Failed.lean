import TieredStyle.Proofs.Grammar.Accepted

/-!
# Why a stylesheet cannot be read

What the reading functions reject, stated as derivations: a derivation says what has been read before, and which
token is in the way or what is missing at the end. The functions fail with an error exactly if it has a derivation.
-/
namespace TieredStyle.Css

/-- No declarations up to a closing brace can be read from the tokens. -/
inductive DeclarationsFail : List Token → ParseError → Prop
  | ended : DeclarationsFail [] (.unexpectedEnd .braceClose)
  | skip {t : Token} {ts : List Token} {x : ParseError} :
      t.is .semicolon = true → DeclarationsFail ts x → DeclarationsFail (t :: ts) x
  | name {t : Token} {ts : List Token} :
      t.is .braceClose = false → t.is .semicolon = false → t.kind ≠ .ident →
      DeclarationsFail (t :: ts) (t.unexpected (.expected .propertyName t.text))
  | colonEnded {t : Token} : t.kind = .ident → DeclarationsFail [t] (.unexpectedEnd .colon)
  | colon {t u : Token} {ts : List Token} : t.kind = .ident → u.is .colon = false →
      DeclarationsFail (t :: u :: ts) (u.unexpected (.expected .colon u.text))
  | valueEnded {t u : Token} {ts : List Token} {value : Value} :
      t.kind = .ident → u.is .colon = true → takeValue ts = (value, []) →
      DeclarationsFail (t :: u :: ts) (.unexpectedEnd .braceClose)
  | value {t u e : Token} {ts us : List Token} {value : Value} :
      t.kind = .ident → u.is .colon = true → takeValue ts = (value, e :: us) →
      e.is .semicolon = false → e.is .braceClose = false →
      DeclarationsFail (t :: u :: ts) (e.unexpected (.inDeclaration e.text))
  | declare {t u e : Token} {ts us : List Token} {value : Value} {x : ParseError} :
      t.kind = .ident → u.is .colon = true → takeValue ts = (value, e :: us) →
      e.is .semicolon = true → DeclarationsFail us x → DeclarationsFail (t :: u :: ts) x

/-- No entries of the `depth`-th block inside one another can be read from the tokens, and at depth zero no
stylesheet. -/
inductive ItemsFail : Nat → List Token → ParseError → Prop
  | ended {depth : Nat} : depth ≠ 0 → ItemsFail depth [] (.unexpectedEnd .braceClose)
  | unmatched {t : Token} {ts : List Token} :
      t.is .braceClose = true → ItemsFail 0 (t :: ts) (t.unexpected .unmatchedBrace)
  | skip {depth : Nat} {t : Token} {ts : List Token} {x : ParseError} :
      t.is .semicolon = true → ItemsFail depth ts x → ItemsFail depth (t :: ts) x
  | selector {depth : Nat} {t : Token} {ts : List Token} : t.is .braceOpen = true →
      ItemsFail depth (t :: ts) (t.unexpected (.expected .selector t.text))
  | headEnded {depth : Nat} {t : Token} {ts head : List Token} :
      t.kind ≠ .atKeyword → endsHead t.kind = false → collect endsHead 0 (t :: ts) = (head, []) →
      ItemsFail depth (t :: ts) (.unexpectedEnd .braceOpen)
  | head {depth : Nat} {t e : Token} {ts head us : List Token} :
      t.kind ≠ .atKeyword → endsHead t.kind = false → collect endsHead 0 (t :: ts) = (head, e :: us) →
      e.is .braceOpen = false → ItemsFail depth (t :: ts) (e.unexpected (.expected .braceOpen e.text))
  | ruleBody {depth : Nat} {t e : Token} {ts head us : List Token} {x : ParseError} :
      t.kind ≠ .atKeyword → endsHead t.kind = false → collect endsHead 0 (t :: ts) = (head, e :: us) →
      e.is .braceOpen = true → DeclarationsFail us x → ItemsFail depth (t :: ts) x
  | rule {depth : Nat} {t e : Token} {ts head us vs : List Token} {ds : List Declaration} {x : ParseError} :
      t.kind ≠ .atKeyword → endsHead t.kind = false → collect endsHead 0 (t :: ts) = (head, e :: us) →
      e.is .braceOpen = true → DeclarationsRead us ds vs → ItemsFail depth vs x →
      ItemsFail depth (t :: ts) x
  | statement {depth : Nat} {t : Token} {ts head us : List Token} {x : ParseError} :
      t.kind = .atKeyword → collect endsHead 0 ts = (head, us) →
      (∀ e ∈ us.head?, e.is .braceOpen = false) → ItemsFail depth us x → ItemsFail depth (t :: ts) x
  | tooDeep {depth : Nat} {t e : Token} {ts head us : List Token} :
      t.kind = .atKeyword → holdsItems t.ruleName = true → collect endsHead 0 ts = (head, e :: us) →
      e.is .braceOpen = true → maxNesting ≤ depth → ItemsFail depth (t :: ts) (e.unexpected .tooDeep)
  | descriptorsBody {depth : Nat} {t e : Token} {ts head us : List Token} {x : ParseError} :
      t.kind = .atKeyword → holdsItems t.ruleName = false → collect endsHead 0 ts = (head, e :: us) →
      e.is .braceOpen = true → DeclarationsFail us x → ItemsFail depth (t :: ts) x
  | descriptors {depth : Nat} {t e : Token} {ts head us vs : List Token} {ds : List Declaration}
      {x : ParseError} :
      t.kind = .atKeyword → holdsItems t.ruleName = false → collect endsHead 0 ts = (head, e :: us) →
      e.is .braceOpen = true → DeclarationsRead us ds vs → ItemsFail depth vs x →
      ItemsFail depth (t :: ts) x
  | groupBody {depth : Nat} {t e : Token} {ts head us : List Token} {x : ParseError} :
      t.kind = .atKeyword → holdsItems t.ruleName = true → collect endsHead 0 ts = (head, e :: us) →
      e.is .braceOpen = true → depth < maxNesting → ItemsFail (depth + 1) us x →
      ItemsFail depth (t :: ts) x
  | group {depth : Nat} {t e : Token} {ts head us vs : List Token} {body : List Item} {x : ParseError} :
      t.kind = .atKeyword → holdsItems t.ruleName = true → collect endsHead 0 ts = (head, e :: us) →
      e.is .braceOpen = true → depth < maxNesting → ItemsRead (depth + 1) us body vs →
      ItemsFail depth vs x → ItemsFail depth (t :: ts) x

/-! ## Declarations -/

theorem takeDeclaration_eq_error {t : Token} {ts : List Token} {x : ParseError}
    (hclose : t.is .braceClose = false) (hsemi : t.is .semicolon = false)
    (h : takeDeclaration t ts = .error x) : DeclarationsFail (t :: ts) x := by
  unfold takeDeclaration at h
  split at h
  next hk =>
    cases h
    exact .name hclose hsemi hk
  next hk =>
  have hident : t.kind = .ident := by simpa using hk
  split at h
  next =>
    cases h
    exact .colonEnded hident
  next u us =>
  split at h
  next hu =>
    dsimp only at h
    split at h
    · cases h
    next e rest hv =>
      split at h
      · cases h
      next hs =>
        split at h
        · cases h
        next hb =>
          cases h
          exact .value hident hu (Prod.ext rfl hv) (by simpa using hs) (by simpa using hb)
  next hu =>
    cases h
    exact .colon hident (by simpa using hu)

/-- A block that starts with its closing brace is read. -/
theorem not_declarationsFail_braceClose {t : Token} {ts : List Token} {x : ParseError}
    (ht : t.is .braceClose = true) : ¬DeclarationsFail (t :: ts) x := by
  have hkind := Token.is_iff.1 ht
  intro h
  cases h with
  | skip hs _ => cases hkind.symm.trans (Token.is_iff.1 hs)
  | name hb _ _ => cases ht.symm.trans hb
  | colonEnded hk => cases hkind.symm.trans hk
  | colon hk _ => cases hkind.symm.trans hk
  | valueEnded hk _ _ => cases hkind.symm.trans hk
  | value hk _ _ _ _ => cases hkind.symm.trans hk
  | declare hk _ _ _ _ => cases hkind.symm.trans hk

theorem declarationsFail_of_take {ts : List Token} {x : ParseError} (h : takeDeclarations ts = .error x) :
    DeclarationsFail ts x := by
  match ts with
  | [] =>
      rw [takeDeclarations] at h
      cases h
      exact .ended
  | t :: ts =>
      rw [takeDeclarations] at h
      split at h
      · cases h
      next hclose =>
      split at h
      next hs =>
        rcases bind_eq_error.1 h with h | ⟨_, _, h⟩
        · exact .skip hs (declarationsFail_of_take h)
        · cases h
      next hs =>
        rcases bind_eq_error.1 h with h | ⟨⟨d, us, hlen⟩, hd, h⟩
        · exact takeDeclaration_eq_error (by simpa using hclose) (by simpa using hs) h
        · rcases bind_eq_error.1 h with h | ⟨_, _, h⟩
          · have hfail := declarationsFail_of_take h
            obtain ⟨hk, u, vs, rfl, hu, _, hr⟩ := takeDeclaration_eq_ok hd
            rcases hr with ⟨hr, hbrace⟩ | ⟨e, hr, he⟩
            · cases us with
              | nil =>
                  cases hfail
                  exact .valueEnded hk hu (Prod.ext rfl hr)
              | cons e us => exact absurd hfail (not_declarationsFail_braceClose (hbrace e rfl))
            · exact .declare hk hu (Prod.ext rfl hr) he hfail
          · cases h
termination_by ts.length
decreasing_by all_goals simp only [List.length_cons]; omega

section

variable {t u e : Token} {ts us : List Token} {value : Value} {x : ParseError}

theorem takeDeclaration_value (ht : t.kind = .ident) (hu : u.is .colon = true)
    (hv : takeValue ts = (value, e :: us)) (hs : e.is .semicolon = false) (hb : e.is .braceClose = false) :
    takeDeclaration t (u :: ts) = .error (e.unexpected (.inDeclaration e.text)) := by
  obtain ⟨_, _, heq⟩ := takeDeclaration_cons ht hu hv
  rw [heq, if_neg (by simp [hs]), if_neg (by simp [hb])]

theorem takeDeclaration_valueEnded (ht : t.kind = .ident) (hu : u.is .colon = true)
    (hv : takeValue ts = (value, [])) : ∃ h, takeDeclaration t (u :: ts) = .ok ⟨⟨t.text, value⟩, [], h⟩ := by
  have hrest : (takeValue ts).2 = [] := by rw [hv]
  have hvalue : (takeValue ts).1 = value := by rw [hv]
  refine ⟨Nat.zero_le _, ?_⟩
  unfold takeDeclaration
  simp only [ht, hu, ne_eq, not_true_eq_false, ↓reduceIte]
  split
  next => rw [hvalue]
  next h => rw [hrest] at h; cases h

theorem DeclarationsFail.take (h : DeclarationsFail ts x) : takeDeclarations ts = .error x := by
  have hmark : ∀ {t : Token}, t.kind = .ident → ¬t.is .braceClose = true ∧ ¬t.is .semicolon = true := by
    intro t ht
    constructor <;> (apply Token.not_is_of_kind; rw [ht]; decide)
  induction h with
  | ended => rw [takeDeclarations]
  | skip hs _ ih =>
      rw [takeDeclarations_semicolon hs, ih]
      rfl
  | name hb hs hk =>
      rw [takeDeclarations_cons (by rw [hb]; decide) (by rw [hs]; decide)]
      unfold takeDeclaration
      rw [if_pos hk]
      rfl
  | colonEnded hk =>
      rw [takeDeclarations_cons (hmark hk).1 (hmark hk).2]
      unfold takeDeclaration
      rw [if_neg (not_not_intro hk)]
      rfl
  | colon hk hu =>
      rw [takeDeclarations_cons (hmark hk).1 (hmark hk).2]
      unfold takeDeclaration
      simp only [hk, hu, ne_eq, not_true_eq_false, Bool.false_eq_true, ↓reduceIte]
      rfl
  | valueEnded hk hu hv =>
      obtain ⟨_, hd⟩ := takeDeclaration_valueEnded hk hu hv
      rw [takeDeclarations_cons (hmark hk).1 (hmark hk).2, hd, Except.bind, takeDeclarations]
      rfl
  | value hk hu hv hs hb =>
      rw [takeDeclarations_cons (hmark hk).1 (hmark hk).2, takeDeclaration_value hk hu hv hs hb]
      rfl
  | declare hk hu hv hs _ ih =>
      obtain ⟨_, hd⟩ := (takeDeclaration_of_takeValue hk hu hv).1 hs
      rw [takeDeclarations_cons (hmark hk).1 (hmark hk).2, hd, Except.bind, ih]
      rfl

end

/-! ## Heads -/

theorem takeRuleHead_eq_error {depth : Nat} {t : Token} {ts : List Token} {x : ParseError}
    (hk : t.kind ≠ .atKeyword) (hclose : ¬t.is .braceClose = true) (hsemi : ¬t.is .semicolon = true)
    (h : takeRuleHead t ts = .error x) : ItemsFail depth (t :: ts) x := by
  unfold takeRuleHead at h
  split at h
  next hend =>
    cases h
    refine .selector ?_
    rw [Token.is_iff] at hclose hsemi ⊢
    unfold endsHead at hend
    split at hend
    next he => exact he
    next he => exact absurd he hclose
    next he => exact absurd he hsemi
    next => cases hend
  next hend =>
  have hend : endsHead t.kind = false := by simpa using hend
  dsimp only at h
  split at h
  next hc =>
    cases h
    exact .headEnded hk hend (Prod.ext rfl hc)
  next e rest hc =>
  split at h
  next => cases h
  next he =>
    cases h
    exact .head hk hend (Prod.ext rfl hc) (by simpa using he)

theorem takeAtHead_eq_error {depth : Nat} {t : Token} {ts : List Token} {x : ParseError}
    (hk : t.kind = .atKeyword) (h : takeAtHead depth t ts = .error x) : ItemsFail depth (t :: ts) x := by
  unfold takeAtHead at h
  dsimp only at h
  split at h
  next => cases h
  next e rest hc =>
  split at h
  next he =>
    split at h
    next hn =>
      split at h
      next hd =>
        cases h
        exact .tooDeep hk hn (Prod.ext rfl hc) he hd
      next => cases h
    next => cases h
  next => split at h <;> cases h

section

variable {depth : Nat} {t e : Token} {ts head us : List Token}

theorem takeRuleHead_selector (ht : endsHead t.kind = true) :
    takeRuleHead t ts = .error (t.unexpected (.expected .selector t.text)) := by
  unfold takeRuleHead
  rw [if_pos ht]

theorem takeRuleHead_headEnded (ht : endsHead t.kind = false)
    (hc : collect endsHead 0 (t :: ts) = (head, [])) :
    takeRuleHead t ts = .error (.unexpectedEnd .braceOpen) := by
  unfold takeRuleHead
  simp only [ht, Bool.false_eq_true, ↓reduceIte]
  split
  next => rfl
  next h =>
    rw [hc] at h
    cases h

theorem takeRuleHead_head (ht : endsHead t.kind = false)
    (hc : collect endsHead 0 (t :: ts) = (head, e :: us)) (he : e.is .braceOpen = false) :
    takeRuleHead t ts = .error (e.unexpected (.expected .braceOpen e.text)) := by
  obtain ⟨_, heq⟩ := takeRuleHead_cons ht hc
  rw [heq, if_neg (by simp [he])]

theorem takeAtHead_tooDeep (hn : holdsItems t.ruleName = true) (hc : collect endsHead 0 ts = (head, e :: us))
    (he : e.is .braceOpen = true) (hd : maxNesting ≤ depth) :
    takeAtHead depth t ts = .error (e.unexpected .tooDeep) := by
  obtain ⟨_, _, heq⟩ := takeAtHead_cons depth t hc
  rw [heq, if_pos he, if_pos hn, if_pos hd]

end

/-! ## Entries -/

/-- Reading on after a body fails in the body or behind it. -/
theorem map_bind_eq_error {α β γ : Type} {n : Nat} {m : Except ParseError (Parsed Token α n)} {f : α → β}
    {k : Parsed Token β n → Except ParseError γ} {x : ParseError}
    (h : ((do return (← m).map f : Except ParseError (Parsed Token β n)).bind k) = .error x) :
    m = .error x ∨ ∃ a rest hlen, m = .ok ⟨a, rest, hlen⟩ ∧ k ⟨f a, rest, hlen⟩ = .error x := by
  cases m with
  | error y =>
      cases h
      exact .inl rfl
  | ok p => exact .inr ⟨p.value, p.rest, p.length_rest_le, rfl, h⟩

theorem bind_ok_eq_error {α β : Type} {m : Except ParseError α} {f : α → β} {x : ParseError}
    (h : (m.bind fun a => .ok (f a)) = .error x) : m = .error x := by
  rcases bind_eq_error.1 h with h | ⟨_, _, h⟩
  · exact h
  · cases h

theorem itemsFail_of_take {depth : Nat} {ts : List Token} {x : ParseError}
    (h : takeItems depth ts = .error x) : ItemsFail depth ts x := by
  match ts with
  | [] =>
      rw [takeItems] at h
      split at h
      · cases h
      next hd =>
        cases h
        exact .ended hd
  | t :: ts =>
      by_cases hclose : t.is .braceClose = true
      · rw [takeItems, if_pos hclose] at h
        split at h
        next hd =>
          cases h
          rw [hd]
          exact .unmatched hclose
        next => cases h
      by_cases hsemi : t.is .semicolon = true
      · rw [takeItems, if_neg hclose, if_pos hsemi] at h
        rcases bind_eq_error.1 h with h | ⟨_, _, h⟩
        · exact .skip hsemi (itemsFail_of_take h)
        · cases h
      rw [takeItems_entry ts hclose hsemi] at h
      rcases bind_eq_error.1 h with h | ⟨⟨head, us, hlen⟩, hh, h⟩
      · by_cases hk : t.kind = .atKeyword
        · rw [takeHead_of_atKeyword hk] at h
          exact takeAtHead_eq_error hk h
        · rw [takeHead_of_rule depth hk] at h
          exact takeRuleHead_eq_error hk hclose hsemi h
      dsimp only at h
      by_cases hk : t.kind = .atKeyword
      · rw [takeHead_of_atKeyword hk] at hh
        obtain ⟨_, ws, hc, hw⟩ := takeAtHead_eq_ok hh
        rcases hw with ⟨e, rfl, he, ⟨hn, hd, hv⟩ | ⟨hn, hv⟩⟩ | ⟨he, hv, hw⟩
        · cases hv
          rcases map_bind_eq_error h with h | ⟨_, vs, hlen', hq, h⟩
          · exact .groupBody hk hn hc he hd (itemsFail_of_take h)
          · exact .group hk hn hc he hd (itemsRead_of_take hq) (itemsFail_of_take (bind_ok_eq_error h))
        · cases hv
          rcases map_bind_eq_error h with h | ⟨_, vs, hlen', hq, h⟩
          · exact .descriptorsBody hk hn hc he (declarationsFail_of_take h)
          · exact .descriptors hk hn hc he (declarationsRead_of_take hq)
              (itemsFail_of_take (bind_ok_eq_error h))
        · cases hv
          have hfail : ItemsFail depth us x := itemsFail_of_take (bind_ok_eq_error h)
          rcases hw with rfl | ⟨e, rfl, hs⟩
          · exact .statement hk hc he hfail
          · exact .statement hk hc he (.skip hs hfail)
      · rw [takeHead_of_rule depth hk] at hh
        obtain ⟨hend, _, e, hc, he, hv⟩ := takeRuleHead_eq_ok hh
        cases hv
        rcases map_bind_eq_error h with h | ⟨_, vs, hlen', hq, h⟩
        · exact .ruleBody hk hend hc he (declarationsFail_of_take h)
        · exact .rule hk hend hc he (declarationsRead_of_take hq) (itemsFail_of_take (bind_ok_eq_error h))
termination_by ts.length
decreasing_by all_goals simp only [List.length_cons]; omega

section

variable {depth : Nat} {t : Token} {ts us vs : List Token} {head : Head} {item : Item} {x : ParseError}

theorem takeItems_of_head (hclose : ¬t.is .braceClose = true) (hsemi : ¬t.is .semicolon = true)
    (h : takeHead depth t ts = .error x) : takeItems depth (t :: ts) = .error x := by
  rw [takeItems_entry ts hclose hsemi, h]
  rfl

theorem takeItems_of_body (ht : endsHead t.kind = false) (hh : ∃ h, takeHead depth t ts = .ok ⟨head, us, h⟩)
    (h : takeBody depth us head = .error x) : takeItems depth (t :: ts) = .error x := by
  obtain ⟨hclose, hsemi⟩ := not_mark_of_endsHead ht
  obtain ⟨_, hh⟩ := hh
  rw [takeItems_entry ts hclose hsemi, hh]
  simp only [Except.bind, h]

theorem takeItems_of_rest (ht : endsHead t.kind = false) (hh : ∃ h, takeHead depth t ts = .ok ⟨head, us, h⟩)
    (hi : ∃ h, takeBody depth us head = .ok ⟨item, vs, h⟩) (h : takeItems depth vs = .error x) :
    takeItems depth (t :: ts) = .error x := by
  obtain ⟨hclose, hsemi⟩ := not_mark_of_endsHead ht
  obtain ⟨_, hh⟩ := hh
  obtain ⟨_, hi⟩ := hi
  rw [takeItems_entry ts hclose hsemi, hh]
  simp only [Except.bind, hi, h]

theorem takeBody_of_fail {make : List Declaration → Item}
    (hbody : takeBody depth us head = (do return (← takeDeclarations us).map make))
    (hds : DeclarationsFail us x) : takeBody depth us head = .error x := by
  rw [hbody, hds.take]
  rfl

end

theorem ItemsFail.take {depth : Nat} {ts : List Token} {x : ParseError} (h : ItemsFail depth ts x) :
    takeItems depth ts = .error x := by
  induction h with
  | ended hd => rw [takeItems, if_neg hd]
  | unmatched ht => rw [takeItems, if_pos ht, if_pos rfl]
  | @skip depth _ _ _ ht _ ih =>
      rw [takeItems_semicolon depth ht, ih]
      rfl
  | @selector depth t ts ht =>
      have hkind := Token.is_iff.1 ht
      apply takeItems_of_head
      · exact Token.not_is_of_is ht (by decide)
      · exact Token.not_is_of_is ht (by decide)
      · rw [takeHead_of_rule depth (by rw [hkind]; decide)]
        exact takeRuleHead_selector (by rw [hkind]; rfl)
  | @headEnded depth _ _ _ hk hend hc =>
      obtain ⟨hclose, hsemi⟩ := not_mark_of_endsHead hend
      apply takeItems_of_head hclose hsemi
      rw [takeHead_of_rule depth hk]
      exact takeRuleHead_headEnded hend hc
  | @head depth _ _ _ _ _ hk hend hc he =>
      obtain ⟨hclose, hsemi⟩ := not_mark_of_endsHead hend
      apply takeItems_of_head hclose hsemi
      rw [takeHead_of_rule depth hk]
      exact takeRuleHead_head hend hc he
  | @ruleBody depth _ _ _ _ _ _ hk hend hc he hds =>
      exact takeItems_of_body hend (takeHead_rule depth hk hend hc he) (takeBody_of_fail rfl hds)
  | @rule depth _ _ _ _ _ _ _ _ hk hend hc he hds _ ih =>
      exact takeItems_of_rest hend (takeHead_rule depth hk hend hc he) (takeBody_of_declarations rfl hds) ih
  | @statement depth _ _ _ _ _ hk hc he _ ih =>
      obtain ⟨vs, hhead, hvs⟩ := takeHead_statement depth hk hc he
      refine takeItems_of_rest (endsHead_of_atKeyword hk) hhead ⟨Nat.le_refl _, rfl⟩ ?_
      rcases hvs with rfl | ⟨e, rfl, hsemi⟩
      · exact ih
      · rw [takeItems_semicolon depth hsemi] at ih
        exact map_eq_error.1 ih
  | @tooDeep depth _ _ _ _ _ hk hn hc he hd =>
      obtain ⟨hclose, hsemi⟩ := not_mark_of_endsHead (endsHead_of_atKeyword hk)
      apply takeItems_of_head hclose hsemi
      rw [takeHead_of_atKeyword hk]
      exact takeAtHead_tooDeep hn hc he hd
  | @descriptorsBody depth _ _ _ _ _ _ hk hn hc he hds =>
      have hhead := takeHead_descriptors depth hk hn hc he
      exact takeItems_of_body (endsHead_of_atKeyword hk) hhead (takeBody_of_fail rfl hds)
  | @descriptors depth _ _ _ _ _ _ _ _ hk hn hc he hds _ ih =>
      have hhead := takeHead_descriptors depth hk hn hc he
      exact takeItems_of_rest (endsHead_of_atKeyword hk) hhead (takeBody_of_declarations rfl hds) ih
  | groupBody hk hn hc he hd _ ih =>
      apply takeItems_of_body (endsHead_of_atKeyword hk) (takeHead_group hk hn hc he hd)
      rw [takeBody, ih]
      rfl
  | group hk hn hc he hd hbody _ ih =>
      have hhead := takeHead_group hk hn hc he hd
      exact takeItems_of_rest (endsHead_of_atKeyword hk) hhead (takeBody_of_items _ _ hbody.take) ih

/-- The reading of entries fails with an error exactly if it has a derivation. -/
theorem takeItems_eq_error_iff {depth : Nat} {ts : List Token} {x : ParseError} :
    takeItems depth ts = .error x ↔ ItemsFail depth ts x :=
  ⟨itemsFail_of_take, ItemsFail.take⟩

end TieredStyle.Css
