import TieredStyle.Proofs.Grammar.Failed

/-!
# Reading with a cursor

A stylesheet can be read by a cursor that moves over its tokens and never goes back. Each reader leaves the cursor
where the tokens start that the reader on lists leaves, also if those are not the ones it asks for.
-/
namespace TieredStyle.Css

/-- A reader that moves a cursor. Where it fails the cursor stays as it is then. -/
abbrev Reading := EStateM ParseError Nat

section

variable (tokens : List Token)

def peek : Reading (Option Token) := fun cursor => .ok tokens[cursor]? cursor

/-- The next token, if there is one; the cursor goes past it. -/
def advance : Reading (Option Token) := fun cursor =>
  match tokens[cursor]? with
  | some t => .ok (some t) (cursor + 1)
  | none => .ok none cursor

/-- Goes past the next token if it is of this kind, and tells whether it was. -/
def eat (kind : Kind) : Reading Bool := fun cursor =>
  if tokens[cursor]?.any (·.kind = kind) then .ok true (cursor + 1) else .ok false cursor

def expect (mark : Mark) (wanted : Expectation) : Reading Token := do
  match ← advance tokens with
  | none => throw (.unexpectedEnd wanted)
  | some t => if t.is mark then return t else throw (t.unexpected (.expected wanted t.text))

/-- Where a cursor comes to that goes on up to the first token outside brackets that `stop` accepts. Brackets only
count, whatever `stop` says of them. -/
def stopFrom (stop : Kind → Bool) (depth cursor : Nat) : Nat :=
  if h : cursor < tokens.length then
    let kind := tokens[cursor].kind
    if kind.opens then stopFrom stop (depth + 1) (cursor + 1)
    else if kind.closes then stopFrom stop (depth - 1) (cursor + 1)
    else if depth = 0 ∧ stop kind then cursor
    else stopFrom stop depth (cursor + 1)
  else cursor
termination_by tokens.length - cursor

/-- The tokens from one cursor up to another. -/
def between (i j : Nat) : List Token := (tokens.drop i).take (j - i)

def collectUntil (stop : Kind → Bool) : Reading (List Token) := fun cursor =>
  let cursor' := stopFrom tokens stop 0 cursor
  .ok (between tokens cursor cursor') cursor'

/-- Reads what ends a declaration: a semicolon, or a closing brace, which stays, or the end of the tokens. -/
def declarationEnd (declaration : Declaration) : Reading Declaration := do
  match ← peek tokens with
  | none => return declaration
  | some e =>
    if e.is .semicolon then
      let _ ← advance tokens
      return declaration
    else if e.is .braceClose then return declaration
    else throw (e.unexpected (.inDeclaration e.text))

/-- Reads the declaration at the cursor, with the semicolon after it. -/
def declarationAt : Reading Declaration := do
  match ← advance tokens with
  | none => throw (.unexpectedEnd .propertyName)
  | some t =>
    if t.kind ≠ .ident then throw (t.unexpected (.expected .propertyName t.text))
    else
      let _ ← expect tokens .colon .colon
      let value ← collectUntil tokens endsValue
      let important ← eat tokens .important
      declarationEnd tokens ⟨t.text, Spacing.value.join value, important⟩

/-- Reads the head of the rule at the cursor. -/
def ruleHeadAt : Reading Head := do
  let selector ← collectUntil tokens endsHead
  if selector.isEmpty then
    match ← peek tokens with
    | none => throw (.unexpectedEnd .selector)
    | some t => throw (t.unexpected (.expected .selector t.text))
  else
    let _ ← expect tokens .braceOpen .braceOpen
    return .rule (Spacing.selector.join selector)

/-- Reads the head of the at-rule at the cursor, whose keyword is `t`, inside `depth` blocks of entries. -/
def atHeadAt (depth : Nat) (t : Token) : Reading Head := do
  let _ ← advance tokens
  let params ← collectUntil tokens endsHead
  let params := Spacing.params.join params
  match (← peek tokens).filter (·.is .braceOpen) with
  | none =>
    let _ ← eat tokens (.mark .semicolon)
    return .statement t.ruleName params
  | some e =>
    if holdsItems t.ruleName ∧ maxNesting ≤ depth then throw (e.unexpected .tooDeep)
    else
      let _ ← advance tokens
      return if holdsItems t.ruleName then .group t.ruleName params else .descriptors t.ruleName params

def headAt (depth : Nat) (t : Token) : Reading Head :=
  if t.kind = .atKeyword then atHeadAt tokens depth t else ruleHeadAt tokens

end

/-! ## What is left -/

/-- These tokens are left at a cursor. -/
structure Left (tokens : List Token) (cursor : Nat) (ts : List Token) : Prop where
  le : cursor ≤ tokens.length
  drop : tokens.drop cursor = ts

variable {tokens ts us vs : List Token} {i j depth : Nat} {t u : Token} {α β : Type} {stop : Kind → Bool}

namespace Left

theorem getElem? (h : Left tokens i ts) : tokens[i]? = ts.head? := by
  rw [← h.drop, List.head?_drop]

theorem add_length (h : Left tokens i ts) : i + ts.length = tokens.length := by
  rw [← h.drop, List.length_drop]
  have := h.le
  omega

theorem append (h : Left tokens i (us ++ ts)) : Left tokens (i + us.length) ts := by
  have hlen := h.add_length
  rw [List.length_append] at hlen
  refine ⟨by omega, ?_⟩
  rw [← List.drop_drop, h.drop, List.drop_left]

theorem next (h : Left tokens i (t :: ts)) : Left tokens (i + 1) ts :=
  @append tokens ts [t] i h

theorem of_getElem? (h : tokens[i]? = some t) : Left tokens i (t :: tokens.drop (i + 1)) := by
  obtain ⟨hlt, rfl⟩ := List.getElem?_eq_some_iff.1 h
  exact ⟨Nat.le_of_lt hlt, List.drop_eq_getElem_cons hlt⟩

theorem of_getElem?_none (hle : i ≤ tokens.length) (h : tokens[i]? = none) : Left tokens i [] :=
  ⟨hle, List.drop_eq_nil_of_le (List.getElem?_eq_none_iff.1 h)⟩

/-- The cursor at which some tokens are left is told by them. -/
theorem lt_of_length (h : Left tokens i ts) (h' : Left tokens j us) (hlen : us.length < ts.length) : i < j := by
  have := h.add_length
  have := h'.add_length
  omega

end Left

/-! ## Collecting -/

/-- From a cursor with this bracket depth on, a token outside brackets stands here that `stop` accepts. -/
def StopsAt (tokens : List Token) (stop : Kind → Bool) (depth i j : Nat) : Prop :=
  ∃ t, tokens[j]? = some t ∧ t.kind.opens = false ∧ t.kind.closes = false ∧ stop t.kind = true ∧
    depthAfterAll depth ((between tokens i j).map (·.kind)) = 0

theorem between_self (tokens : List Token) (i : Nat) : between tokens i i = [] := by
  rw [between, Nat.sub_self, List.take_zero]

theorem between_cons (h : tokens[i]? = some t) (hij : i < j) :
    between tokens i j = t :: between tokens (i + 1) j := by
  obtain ⟨n, rfl⟩ := Nat.exists_eq_add_of_lt hij
  rw [between, (Left.of_getElem? h).drop, between, show i + n + 1 - i = n + 1 by omega,
    show i + n + 1 - (i + 1) = n by omega, List.take_succ_cons]

theorem stopsAt_self (h : tokens[i]? = some t) : StopsAt tokens stop depth i i ↔
    t.kind.opens = false ∧ t.kind.closes = false ∧ stop t.kind = true ∧ depth = 0 := by
  rw [StopsAt, h, between_self]
  simp [depthAfterAll]

theorem stopsAt_succ (h : tokens[i]? = some t) (hij : i < j) :
    StopsAt tokens stop depth i j ↔ StopsAt tokens stop (t.kind.depthAfter depth) (i + 1) j := by
  rw [StopsAt, StopsAt, between_cons h hij]
  rfl

/-- From a cursor with this bracket depth on, this is the first place to stop, or the end where there is none. -/
structure FirstStop (tokens : List Token) (stop : Kind → Bool) (depth i j : Nat) : Prop where
  le : i ≤ j
  passed (k : Nat) : i ≤ k → k < j → ¬StopsAt tokens stop depth i k
  stops : StopsAt tokens stop depth i j ∨ j = tokens.length

theorem FirstStop.le_length (h : FirstStop tokens stop depth i j) : j ≤ tokens.length := by
  rcases h.stops with ⟨t, ht, _⟩ | rfl
  · exact Nat.le_of_lt (List.getElem?_eq_some_iff.1 ht).1
  · exact Nat.le_refl _

theorem FirstStop.cons (h : tokens[i]? = some t) (hpass : ¬StopsAt tokens stop depth i i)
    (hfirst : FirstStop tokens stop (t.kind.depthAfter depth) (i + 1) j) : FirstStop tokens stop depth i j := by
  refine ⟨Nat.le_of_succ_le hfirst.le, fun k hik hkj => ?_, ?_⟩
  · rcases Nat.eq_or_lt_of_le hik with rfl | hik
    · exact hpass
    · rw [stopsAt_succ h hik]
      exact hfirst.passed k hik hkj
  · rw [stopsAt_succ h hfirst.le]
    exact hfirst.stops

theorem stopFrom_nil (h : Left tokens i []) : stopFrom tokens stop depth i = i := by
  have hend := h.add_length
  rw [stopFrom, dif_neg (by simp only [List.length_nil] at hend; omega)]

/-- Going on stops at a token outside brackets that `stop` accepts, and otherwise goes past the token. -/
theorem stopFrom_cons (h : Left tokens i (t :: ts)) : stopFrom tokens stop depth i =
    if t.kind.opens = false ∧ t.kind.closes = false ∧ stop t.kind = true ∧ depth = 0 then i
    else stopFrom tokens stop (t.kind.depthAfter depth) (i + 1) := by
  obtain ⟨hlt, rfl⟩ := List.getElem?_eq_some_iff.1 h.getElem?
  rw [stopFrom, dif_pos hlt, Kind.depthAfter]
  dsimp only
  cases tokens[i].kind.opens <;> cases tokens[i].kind.closes <;> simp [and_comm]

theorem firstStop_stopFrom (stop : Kind → Bool) (depth : Nat) (h : Left tokens i ts) :
    FirstStop tokens stop depth i (stopFrom tokens stop depth i) := by
  induction ts generalizing i depth with
  | nil =>
      rw [stopFrom_nil h]
      exact ⟨Nat.le_refl i, fun k hik hki => absurd hki (Nat.not_lt.2 hik), .inr h.add_length⟩
  | cons t ts ih =>
      rw [stopFrom_cons h]
      split
      next hstop =>
        refine ⟨Nat.le_refl i, fun k hik hki => absurd hki (Nat.not_lt.2 hik), .inl ?_⟩
        exact (stopsAt_self h.getElem?).2 hstop
      next hpass =>
        exact .cons h.getElem? (fun hstop => hpass ((stopsAt_self h.getElem?).1 hstop)) (ih _ h.next)

/-- A stop that is no bracket. -/
def Bracketless (stop : Kind → Bool) : Prop := ∀ k, stop k = true → k.opens = false ∧ k.closes = false

theorem bracketless_endsHead : Bracketless endsHead := by
  intro k h
  cases k with
  | mark m => cases m <;> first | exact ⟨rfl, rfl⟩ | cases h
  | _ => cases h

theorem bracketless_endsValue : Bracketless endsValue := by
  intro k h
  rw [endsValue, Bool.or_eq_true, decide_eq_true_iff] at h
  rcases h with rfl | h
  · exact ⟨rfl, rfl⟩
  · exact bracketless_endsHead k h

theorem stopFrom_eq (hb : Bracketless stop) (h : Left tokens i ts) :
    stopFrom tokens stop depth i = i + (collect stop depth ts).1.length := by
  induction ts generalizing i depth with
  | nil => exact stopFrom_nil h
  | cons t ts ih =>
      rw [stopFrom_cons h, collect]
      by_cases hstop : depth = 0 ∧ stop t.kind = true
      · obtain ⟨hopens, hcloses⟩ := hb t.kind hstop.2
        rw [if_pos ⟨hopens, hcloses, hstop.2, hstop.1⟩, if_pos hstop]
        rfl
      · rw [if_neg fun hall => hstop hall.2.2.symm, if_neg hstop, ih h.next, Nat.add_right_comm]
        rfl

theorem collect_drop (hb : Bracketless stop) (hle : i ≤ tokens.length) : collect stop 0 (tokens.drop i) =
    (between tokens i (stopFrom tokens stop 0 i), tokens.drop (stopFrom tokens stop 0 i)) := by
  have happend := collect_append stop 0 (tokens.drop i)
  have hstop : stopFrom tokens stop 0 i = i + (collect stop 0 (tokens.drop i)).1.length := stopFrom_eq hb ⟨hle, rfl⟩
  refine Prod.ext ?_ ?_
  · rw [between, hstop, Nat.add_sub_cancel_left]
    exact List.prefix_iff_eq_take.1 ⟨_, happend⟩
  · have hrest := congrArg (List.drop (collect stop 0 (tokens.drop i)).1.length) happend
    rw [List.drop_left, List.drop_drop] at hrest
    rw [hstop, hrest]

/-! ## Steps of readers -/

theorem run_peek (h : Left tokens i ts) : peek tokens i = .ok ts.head? i := by
  rw [peek, h.getElem?]

theorem run_advance (h : Left tokens i (t :: ts)) : advance tokens i = .ok (some t) (i + 1) := by
  rw [advance, h.getElem?]
  rfl

theorem run_expect (mark : Mark) (wanted : Expectation) (h : Left tokens i (t :: ts)) : expect tokens mark wanted i =
    if t.is mark then .ok t (i + 1) else .error (t.unexpected (.expected wanted t.text)) (i + 1) := by
  rw [expect, run_bind (run_advance h)]
  dsimp only
  split <;> rfl

theorem run_expect_nil (mark : Mark) (wanted : Expectation) (h : Left tokens i []) :
    expect tokens mark wanted i = .error (.unexpectedEnd wanted) i := by
  rw [expect, run_bind (t := i) (a := none) (by rw [advance, h.getElem?]; rfl)]
  rfl

theorem run_collectUntil (hb : Bracketless stop) (h : Left tokens i ts) (hc : collect stop 0 ts = (us, vs)) :
    ∃ j, collectUntil tokens stop i = .ok us j ∧ i ≤ j ∧ Left tokens j vs := by
  have hcollect := collect_drop hb h.le
  have hfirst := firstStop_stopFrom stop 0 h
  rw [h.drop, hc, Prod.mk.injEq] at hcollect
  exact ⟨stopFrom tokens stop 0 i, by rw [collectUntil, hcollect.1], hfirst.le, hfirst.le_length, hcollect.2.symm⟩

theorem run_eat {kind : Kind} (h : Left tokens i ts) (hk : ∀ t ∈ ts.head?, t.kind ≠ kind) :
    eat tokens kind i = .ok false i := by
  rw [eat, h.getElem?, if_neg]
  cases ts with
  | nil => exact Bool.false_ne_true
  | cons t ts => simpa using hk t rfl

theorem run_eat_cons {kind : Kind} (h : Left tokens i (t :: ts)) (hk : t.kind = kind) :
    eat tokens kind i = .ok true (i + 1) := by
  rw [eat, h.getElem?, if_pos (by simpa using hk)]

/-- The next token has a property, or there is none that has it. -/
theorem head_cases (p : Token → Bool) (ts : List Token) :
    (∃ t us, ts = t :: us ∧ p t = true) ∨ ∀ t ∈ ts.head?, p t = false := by
  cases ts with
  | nil => exact .inr fun t ht => by cases ht
  | cons t ts =>
      cases hp : p t with
      | true => exact .inl ⟨t, ts, rfl, hp⟩
      | false => exact .inr fun u hu => by cases hu; exact hp

theorem run_value {value : Value} (h : Left tokens i ts) (hv : takeValue ts = (value, us)) : ∃ taken j j',
    collectUntil tokens endsValue i = .ok taken j ∧ eat tokens .important j = .ok value.important j' ∧
      value = ⟨Spacing.value.join taken, value.important⟩ ∧ i ≤ j' ∧ Left tokens j' us := by
  cases hc : collect endsValue 0 ts with
  | mk taken rest =>
      obtain ⟨j, hrun, hij, hleft⟩ := run_collectUntil bracketless_endsValue h hc
      rw [takeValue, hc] at hv
      rcases head_cases (·.kind = .important) rest with ⟨t, rest, rfl, ht⟩ | hnot
      · simp only [takeImportant, of_decide_eq_true ht, ↓reduceIte, Prod.mk.injEq] at hv
        obtain ⟨rfl, rfl⟩ := hv
        exact ⟨taken, j, j + 1, hrun, run_eat_cons hleft (of_decide_eq_true ht), rfl, Nat.le_succ_of_le hij, hleft.next⟩
      · have hnot : ∀ t ∈ rest.head?, t.kind ≠ .important := fun t ht => of_decide_eq_false (hnot t ht)
        have htake : takeImportant rest = (false, rest) := by
          cases rest with
          | nil => rfl
          | cons t rest => rw [takeImportant, if_neg (hnot t rfl)]
        simp only [htake, Prod.mk.injEq] at hv
        obtain ⟨rfl, rfl⟩ := hv
        exact ⟨taken, j, j, hrun, run_eat hleft hnot, rfl, hij, hleft⟩

/-! ## Readers -/

/-- From a cursor on, a reader gives what the reader on lists gives for the tokens that are left, and goes forward. -/
inductive Agrees (tokens : List Token) (i : Nat) {n : Nat} :
    EStateM.Result ParseError Nat α → Except ParseError (Parsed Token α n) → Prop
  | ok {value : α} {j : Nat} {rest : List Token} {hlen : rest.length ≤ n} :
      i < j → Left tokens j rest → Agrees tokens i (.ok value j) (.ok ⟨value, rest, hlen⟩)
  | error {e : ParseError} {j : Nat} : i ≤ j → j ≤ tokens.length → Agrees tokens i (.error e j) (.error e)

theorem agrees_declarationEnd {value : Value} (hk : t.kind = .ident) (hu : u.is .colon = true)
    (hv : takeValue ts = (value, us)) (hlt : i < j) (h : Left tokens j us) :
    Agrees tokens i (declarationEnd tokens ⟨t.text, value⟩ j) (takeDeclaration t (u :: ts)) := by
  rw [declarationEnd, run_bind (run_peek h)]
  cases us with
  | nil =>
      obtain ⟨_, htake⟩ := takeDeclaration_valueEnded hk hu hv
      rw [htake]
      exact .ok hlt h
  | cons e us =>
      dsimp only [List.head?_cons]
      obtain ⟨hpast, hbefore⟩ := takeDeclaration_of_takeValue hk hu hv
      by_cases hs : e.is .semicolon = true
      · obtain ⟨_, htake⟩ := hpast hs
        rw [htake, if_pos hs, run_bind (run_advance h)]
        exact .ok (Nat.lt_succ_of_lt hlt) h.next
      · rw [if_neg hs]
        rw [Bool.not_eq_true] at hs
        by_cases hb : e.is .braceClose = true
        · obtain ⟨_, htake⟩ := hbefore hs hb
          rw [htake, if_pos hb]
          exact .ok hlt h
        · rw [if_neg hb, takeDeclaration_value hk hu hv hs (Bool.not_eq_true _ ▸ hb)]
          exact .error (Nat.le_of_lt hlt) h.le

theorem agrees_declarationAt (h : Left tokens i (t :: ts)) :
    Agrees tokens i (declarationAt tokens i) (takeDeclaration t ts) := by
  rw [declarationAt, run_bind (run_advance h)]
  dsimp only
  by_cases hk : t.kind = .ident
  · rw [if_neg (not_not_intro hk)]
    cases ts with
    | nil =>
        rw [run_bind_error (run_expect_nil .colon .colon h.next), takeDeclaration, if_neg (not_not_intro hk)]
        exact .error (Nat.le_succ i) h.next.le
    | cons u us =>
        have hcolon := run_expect .colon .colon h.next
        by_cases hu : u.is .colon = true
        · rw [if_pos hu] at hcolon
          cases hv : takeValue us with
          | mk value rest =>
              obtain ⟨taken, j, j', htaken, himportant, hvalue, hij, hleft⟩ := run_value h.next.next hv
              rw [run_bind hcolon, run_bind htaken, run_bind himportant, ← hvalue]
              exact agrees_declarationEnd hk hu hv (by omega) hleft
        · rw [if_neg hu] at hcolon
          rw [run_bind_error hcolon, takeDeclaration, if_neg (not_not_intro hk)]
          dsimp only
          rw [if_neg hu]
          exact .error (by omega) h.next.next.le
  · unfold takeDeclaration
    rw [if_pos hk, if_pos hk]
    exact .error (Nat.le_succ i) h.next.le

theorem agrees_ruleHeadAt (h : Left tokens i (t :: ts)) :
    Agrees tokens i (ruleHeadAt tokens i) (takeRuleHead t ts) := by
  cases hc : collect endsHead 0 (t :: ts) with
  | mk head rest =>
      obtain ⟨j, hrun, hij, hleft⟩ := run_collectUntil bracketless_endsHead h hc
      rw [ruleHeadAt, run_bind hrun]
      by_cases ht : endsHead t.kind = true
      · rw [collect, if_pos ⟨rfl, ht⟩] at hc
        cases hc
        rw [if_pos List.isEmpty_nil, run_bind (run_peek hleft), takeRuleHead_selector ht]
        exact .error hij hleft.le
      · rw [Bool.not_eq_true] at ht
        have hcons : collect endsHead 0 (t :: ts) = (t :: (collect endsHead (t.kind.depthAfter 0) ts).1,
            (collect endsHead (t.kind.depthAfter 0) ts).2) := by
          rw [collect, if_neg (by simp [ht])]
        obtain ⟨hhead, hrest⟩ := Prod.mk.inj (hcons.symm.trans hc)
        have hlen := length_collect_le endsHead (t.kind.depthAfter 0) ts
        rw [hrest] at hlen
        have hlt : i < j := h.lt_of_length hleft (Nat.lt_succ_of_le hlen)
        rw [if_neg (by rw [← hhead]; exact Bool.false_ne_true)]
        cases rest with
        | nil =>
            rw [run_bind_error (run_expect_nil .braceOpen .braceOpen hleft), takeRuleHead_headEnded ht hc]
            exact .error hij hleft.le
        | cons e us =>
            have hopen := run_expect .braceOpen .braceOpen hleft
            by_cases he : e.is .braceOpen = true
            · rw [if_pos he] at hopen
              obtain ⟨_, htake⟩ := takeRuleHead_of_collect ht hc he
              rw [run_bind hopen, htake]
              exact .ok (Nat.lt_succ_of_lt hlt) hleft.next
            · rw [if_neg he] at hopen
              rw [run_bind_error hopen, takeRuleHead_head ht hc (Bool.not_eq_true _ ▸ he)]
              exact .error (Nat.le_succ_of_le hij) hleft.next.le

theorem agrees_atHeadAt (depth : Nat) (h : Left tokens i (t :: ts)) :
    Agrees tokens i (atHeadAt tokens depth t i) (takeAtHead depth t ts) := by
  cases hc : collect endsHead 0 ts with
  | mk head rest =>
      obtain ⟨j, hrun, hij, hleft⟩ := run_collectUntil bracketless_endsHead h.next hc
      rw [atHeadAt, run_bind (run_advance h), run_bind hrun, run_bind (run_peek hleft)]
      rcases head_cases (·.is .braceOpen) rest with ⟨e, us, rfl, he⟩ | hnot
      · rw [List.head?_cons, Option.filter_some, if_pos he]
        dsimp only
        by_cases hn : holdsItems t.ruleName = true
        · by_cases hd : maxNesting ≤ depth
          · rw [if_pos ⟨hn, hd⟩, takeAtHead_tooDeep hn hc he hd]
            exact .error (Nat.le_of_succ_le hij) hleft.le
          · obtain ⟨_, htake⟩ := takeAtHead_group hc he hn (Nat.lt_of_not_le hd)
            rw [if_neg (fun hboth => hd hboth.2), run_bind (run_advance hleft), if_pos hn, htake]
            exact .ok (Nat.lt_succ_of_lt hij) hleft.next
        · obtain ⟨_, htake⟩ := takeAtHead_descriptors depth hc he (Bool.not_eq_true _ ▸ hn)
          rw [if_neg (fun hboth => hn hboth.1), run_bind (run_advance hleft), if_neg hn, htake]
          exact .ok (Nat.lt_succ_of_lt hij) hleft.next
      · rw [Option.filter_eq_none_iff.2 fun e he => Bool.not_eq_true _ ▸ hnot e he]
        dsimp only
        rcases head_cases (·.is .semicolon) rest with ⟨e, us, rfl, he⟩ | hstay
        · obtain ⟨_, htake⟩ := takeAtHead_past_semicolon depth t hc he
          rw [run_bind (run_eat_cons hleft (Token.is_iff.1 he)), htake]
          exact .ok (Nat.lt_succ_of_lt hij) hleft.next
        · obtain ⟨_, htake⟩ := takeAtHead_before_end depth t hc hnot hstay
          rw [run_bind (run_eat hleft fun e he => of_decide_eq_false (hstay e he)), htake]
          exact .ok hij hleft

theorem agrees_headAt (depth : Nat) (h : Left tokens i (t :: ts)) :
    Agrees tokens i (headAt tokens depth t i) (takeHead depth t ts) := by
  by_cases ht : t.kind = .atKeyword
  · rw [headAt, if_pos ht, takeHead_of_atKeyword ht]
    exact agrees_atHeadAt depth h
  · rw [headAt, if_neg ht, takeHead_of_rule depth ht]
    exact agrees_ruleHeadAt h

end TieredStyle.Css
