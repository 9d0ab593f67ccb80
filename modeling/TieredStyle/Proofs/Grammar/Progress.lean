import Mathlib.Logic.Relation
import TieredStyle.Css.Sheet.OfItems
import TieredStyle.Proofs.Grammar.Cursor

/-!
# Reading comes to an end

The loops that read entries and declarations are the turns of a machine, whose stack holds the blocks that are open.
Each turn moves the cursor forward and leaves the answer as it is, so a stylesheet is read in as many turns as it has
tokens.
-/
namespace TieredStyle.Css

/-- What has a block of declarations. -/
inductive Owner
  | rule (selector : String)
  | descriptors (name params : String)

def Owner.item : Owner → List Declaration → Item
  | .rule selector, ds => .rule selector ds
  | .descriptors name params, ds => .descriptors name params ds

/-- A block of declarations that is open, with those read so far. -/
structure Block where
  owner : Owner
  declarations : List Declaration

/-- An at-rule whose block of entries is open, with the entries before it. -/
structure Group where
  name : String
  params : String
  before : List Item

/-- The reader between two turns of its loops. The calls that wait for a block of entries to end stand in `groups`,
innermost first; `depth` is the count that the reader keeps of them. Inside them all entries are read, or the
declarations of a block. -/
structure Machine where
  cursor : Nat
  depth : Nat
  groups : List Group
  items : List Item
  block : Option Block

/-- What comes of a turn: the next one, or an answer. -/
inductive Turn
  | next (m : Machine)
  | halt (cursor : Nat) (answer : Except ParseError (List Item))

/-- Goes on with what a reader gives, or fails as it does. -/
def Turn.after {α : Type} (r : EStateM.Result ParseError Nat α) (k : α → Nat → Machine) : Turn :=
  match r with
  | .ok a cursor => .next (k a cursor)
  | .error e cursor => .halt cursor (.error e)

namespace Machine

def start : Machine := ⟨0, 0, [], [], none⟩

/-- Goes on behind the head of an entry. -/
def enter (m : Machine) (cursor : Nat) : Head → Machine
  | .rule selector => { m with cursor, block := some ⟨.rule selector, []⟩ }
  | .statement name params => { m with cursor, items := m.items ++ [.statement name params] }
  | .descriptors name params => { m with cursor, block := some ⟨.descriptors name params, []⟩ }
  | .group name params => ⟨cursor, m.depth + 1, ⟨name, params, m.items⟩ :: m.groups, [], none⟩

section

variable (tokens : List Token)

/-- A turn of the loop that reads the declarations of a block. -/
def declarationTurn (m : Machine) (b : Block) : Turn :=
  match tokens[m.cursor]? with
  | none => .halt m.cursor (.error (.unexpectedEnd .braceClose))
  | some t =>
    if t.is .braceClose then
      .after (expect tokens .braceClose .braceClose m.cursor) fun _ cursor =>
        { m with cursor, items := m.items ++ [b.owner.item b.declarations], block := none }
    else if t.is .semicolon then .next { m with cursor := m.cursor + 1 }
    else .after (declarationAt tokens m.cursor) fun d cursor =>
      { m with cursor, block := some ⟨b.owner, b.declarations ++ [d]⟩ }

/-- A turn of the loop that reads entries. -/
def itemTurn (m : Machine) : Turn :=
  match tokens[m.cursor]? with
  | none => .halt m.cursor (if m.groups.isEmpty then .ok m.items else .error (.unexpectedEnd .braceClose))
  | some t =>
    if t.is .braceClose then
      match m.groups with
      | [] => .halt m.cursor (.error (t.unexpected .unmatchedBrace))
      | g :: gs =>
        .after (expect tokens .braceClose .braceClose m.cursor) fun _ cursor =>
          ⟨cursor, m.depth - 1, gs, g.before ++ [.group g.name g.params m.items], none⟩
    else if t.is .semicolon then .next { m with cursor := m.cursor + 1 }
    else .after (headAt tokens m.depth t m.cursor) fun head cursor => m.enter cursor head

def turn (m : Machine) : Turn :=
  match m.block with
  | none => m.itemTurn tokens
  | some b => m.declarationTurn tokens b

/-- Takes so many turns, if it does not halt before. -/
def run : Nat → Machine → Turn
  | 0, m => .next m
  | n + 1, m =>
    match m.turn tokens with
    | .next m' => m'.run n
    | .halt cursor answer => .halt cursor answer

/-- One turn leads from one state to the other. -/
def Turns (m m' : Machine) : Prop := m.turn tokens = .next m'

/-- Reading comes to this state. -/
def Reached (m : Machine) : Prop := Relation.ReflTransGen (Turns tokens) start m

/-- The cursor is inside the text, and the count is that of the open blocks of entries. -/
structure Sound (m : Machine) : Prop where
  cursor_le : m.cursor ≤ tokens.length
  depth_eq : m.depth = m.groups.length
  depth_le : m.depth ≤ maxNesting

end

end Machine

/-! ## The answer -/

/-- What is read once the entries of the innermost block are, with the tokens `ts` behind it. -/
def close : List Group → List Item → List Token → Except ParseError (List Item)
  | [], items, _ => .ok items
  | g :: gs, items, ts => (takeItems gs.length ts).bind fun p =>
    close gs (g.before ++ [.group g.name g.params items] ++ p.value) p.rest

/-- What is read once some entries of the innermost block are, with the tokens `ts` left. -/
def resume (gs : List Group) (items : List Item) (ts : List Token) : Except ParseError (List Item) :=
  (takeItems gs.length ts).bind fun p => close gs (items ++ p.value) p.rest

/-- What reading gives in the end from some state on. -/
def Machine.answer (tokens : List Token) (m : Machine) : Except ParseError (List Item) :=
  match m.block with
  | none => resume m.groups m.items (tokens.drop m.cursor)
  | some b => (takeDeclarations (tokens.drop m.cursor)).bind fun p =>
    resume m.groups (m.items ++ [b.owner.item (b.declarations ++ p.value)]) p.rest

variable {gs : List Group} {g : Group} {items : List Item} {tokens ts us : List Token} {t : Token} {m m' : Machine}
  {i j : Nat}

theorem resume_nil : resume [] items [] = .ok items := by
  rw [resume, takeItems]
  exact congrArg Except.ok (List.append_nil items)

theorem resume_cons_nil : resume (g :: gs) items [] = .error (.unexpectedEnd .braceClose) := by
  rw [resume, takeItems]
  rfl

theorem resume_unmatched (ht : t.is .braceClose = true) :
    resume [] items (t :: ts) = .error (t.unexpected .unmatchedBrace) := by
  rw [resume, takeItems, if_pos ht]
  rfl

theorem resume_braceClose (ht : t.is .braceClose = true) :
    resume (g :: gs) items (t :: ts) = resume gs (g.before ++ [.group g.name g.params items]) ts := by
  have hne : (g :: gs).length ≠ 0 := Nat.succ_ne_zero gs.length
  rw [resume, takeItems, if_pos ht, if_neg hne]
  simp only [Except.bind, List.append_nil]
  rfl

theorem resume_semicolon (hclose : ¬t.is .braceClose = true) (ht : t.is .semicolon = true) :
    resume gs items (t :: ts) = resume gs items ts := by
  rw [resume, takeItems, if_neg hclose, if_pos ht, resume]
  cases takeItems gs.length ts <;> rfl

theorem resume_entry (hclose : ¬t.is .braceClose = true) (hsemi : ¬t.is .semicolon = true) :
    resume gs items (t :: ts) = (takeHead gs.length t ts).bind fun p =>
      (takeBody gs.length p.rest p.value).bind fun q => resume gs (items ++ [q.value]) q.rest := by
  rw [resume, takeItems_entry ts hclose hsemi]
  cases takeHead gs.length t ts with
  | error e => rfl
  | ok p =>
      simp only [Except.bind]
      cases takeBody gs.length p.rest p.value with
      | error e => rfl
      | ok q =>
          simp only [resume]
          cases takeItems gs.length q.rest with
          | error e => rfl
          | ok r => simp only [Except.bind, List.append_assoc, List.singleton_append]

theorem answer_enter {head : Head} (h : Left tokens j ts) (hblock : m.block = none) :
    (m.enter j head).answer tokens =
      (takeBody m.groups.length ts head).bind fun p => resume m.groups (m.items ++ [p.value]) p.rest := by
  obtain ⟨-, rfl⟩ := h
  cases head with
  | rule selector =>
      simp only [Machine.enter, Machine.answer, takeBody]
      cases takeDeclarations (tokens.drop j) <;> rfl
  | statement name params =>
      simp only [Machine.enter, Machine.answer, hblock]
      rfl
  | descriptors name params =>
      simp only [Machine.enter, Machine.answer, takeBody]
      cases takeDeclarations (tokens.drop j) <;> rfl
  | group name params =>
      simp only [Machine.enter, Machine.answer, takeBody, resume, List.length_cons]
      cases takeItems (m.groups.length + 1) (tokens.drop j) <;> rfl

/-! ## Turns -/

/-- What a turn does to a sound state: it goes on to a sound one with the same answer, or it gives that answer. -/
def Turn.Keeps (tokens : List Token) (m : Machine) : Turn → Prop
  | .next m' => m'.Sound tokens ∧ m.cursor < m'.cursor ∧ m'.answer tokens = m.answer tokens
  | .halt cursor answer => m.cursor ≤ cursor ∧ cursor ≤ tokens.length ∧ answer = m.answer tokens

theorem Turn.keeps_after {α : Type} {n : Nat} {r : EStateM.Result ParseError Nat α} {k : α → Nat → Machine}
    {p : Except ParseError (Parsed Token α n)} (h : Agrees tokens m.cursor r p)
    (hok : ∀ a j rest hlen, p = .ok ⟨a, rest, hlen⟩ → m.cursor < j → Left tokens j rest →
      (Turn.next (k a j)).Keeps tokens m)
    (herror : ∀ e, p = .error e → m.answer tokens = .error e) : (Turn.after r k).Keeps tokens m := by
  cases h with
  | ok hlt hleft => exact hok _ _ _ _ rfl hlt hleft
  | error hle hend => exact ⟨hle, hend, (herror _ rfl).symm⟩

/-- A block of entries is opened while there is room for one more. -/
theorem lt_maxNesting {depth : Nat} {name params : String} {hlen : us.length ≤ ts.length}
    (h : takeHead depth t ts = .ok ⟨.group name params, us, hlen⟩) : depth < maxNesting := by
  by_cases ht : t.kind = .atKeyword
  · rw [takeHead_of_atKeyword ht] at h
    obtain ⟨_, _, _, ⟨_, _, _, ⟨_, hlt, _⟩ | ⟨_, hvalue⟩⟩ | ⟨_, hvalue, _⟩⟩ := takeAtHead_eq_ok h
    · exact hlt
    · cases hvalue
    · cases hvalue
  · rw [takeHead_of_rule depth ht] at h
    obtain ⟨_, _, _, _, _, hvalue⟩ := takeRuleHead_eq_ok h
    cases hvalue

theorem sound_enter {head : Head} (h : m.Sound tokens) (hle : j ≤ tokens.length)
    (hroom : ∀ name params, head = .group name params → m.depth < maxNesting) : (m.enter j head).Sound tokens := by
  cases head with
  | group name params => exact ⟨hle, congrArg (· + 1) h.depth_eq, hroom name params rfl⟩
  | _ => exact ⟨hle, h.depth_eq, h.depth_le⟩

theorem cursor_enter (m : Machine) (j : Nat) (head : Head) : (m.enter j head).cursor = j := by
  cases head <;> rfl

theorem keeps_declarationTurn {b : Block} (h : m.Sound tokens) (hb : m.block = some b) :
    (m.declarationTurn tokens b).Keeps tokens m := by
  have hanswer : m.answer tokens = (takeDeclarations (tokens.drop m.cursor)).bind fun p =>
      resume m.groups (m.items ++ [b.owner.item (b.declarations ++ p.value)]) p.rest := by
    rw [Machine.answer, hb]
  rw [Machine.declarationTurn]
  split
  next hnone =>
    refine ⟨Nat.le_refl _, h.cursor_le, ?_⟩
    rw [hanswer, (Left.of_getElem?_none h.cursor_le hnone).drop, takeDeclarations]
    rfl
  next t hsome =>
    have hleft := Left.of_getElem? hsome
    rw [hleft.drop] at hanswer
    split
    next hclose =>
      rw [run_expect .braceClose .braceClose hleft, if_pos hclose]
      refine ⟨⟨hleft.next.le, h.depth_eq, h.depth_le⟩, Nat.lt_succ_self _, ?_⟩
      rw [hanswer, takeDeclarations, if_pos hclose]
      simp only [Except.bind, List.append_nil]
      rfl
    next hclose =>
    split
    next hsemi =>
      refine ⟨⟨hleft.next.le, h.depth_eq, h.depth_le⟩, Nat.lt_succ_self _, ?_⟩
      rw [hanswer, takeDeclarations, if_neg hclose, if_pos hsemi, Machine.answer, hb]
      dsimp only
      cases takeDeclarations (tokens.drop (m.cursor + 1)) <;> rfl
    next hsemi =>
      rw [takeDeclarations_cons hclose hsemi] at hanswer
      refine Turn.keeps_after (agrees_declarationAt hleft) (fun d j rest hlen htake hlt hrest => ?_) fun e htake => ?_
      · refine ⟨⟨hrest.le, h.depth_eq, h.depth_le⟩, hlt, ?_⟩
        rw [hanswer, htake, Machine.answer, hrest.drop]
        dsimp only [Except.bind]
        cases takeDeclarations rest with
        | error e => rfl
        | ok q => simp only [List.append_assoc, List.singleton_append]
      · rw [hanswer, htake]
        rfl

theorem keeps_itemTurn (h : m.Sound tokens) (hb : m.block = none) : (m.itemTurn tokens).Keeps tokens m := by
  have hanswer : m.answer tokens = resume m.groups m.items (tokens.drop m.cursor) := by
    rw [Machine.answer, hb]
  rw [Machine.itemTurn]
  split
  next hnone =>
    refine ⟨Nat.le_refl _, h.cursor_le, ?_⟩
    rw [hanswer, (Left.of_getElem?_none h.cursor_le hnone).drop]
    cases m.groups with
    | nil => exact resume_nil.symm
    | cons g gs => exact resume_cons_nil.symm
  next t hsome =>
    have hleft := Left.of_getElem? hsome
    rw [hleft.drop] at hanswer
    split
    next hclose =>
      split
      next hgroups =>
        refine ⟨Nat.le_refl _, h.cursor_le, ?_⟩
        rw [hanswer, hgroups, resume_unmatched hclose]
      next g gs hgroups =>
        -- the block that ends here has been counted, so the count does not go below zero
        have hdepth := h.depth_eq
        have hmax := h.depth_le
        rw [hgroups, List.length_cons] at hdepth
        rw [run_expect .braceClose .braceClose hleft, if_pos hclose]
        refine ⟨⟨hleft.next.le, ?_, ?_⟩, Nat.lt_succ_self _, ?_⟩
        · show m.depth - 1 = gs.length
          omega
        · show m.depth - 1 ≤ maxNesting
          omega
        · rw [hanswer, hgroups, resume_braceClose hclose]
          rfl
    next hclose =>
    split
    next hsemi =>
      refine ⟨⟨hleft.next.le, h.depth_eq, h.depth_le⟩, Nat.lt_succ_self _, ?_⟩
      rw [hanswer, resume_semicolon hclose hsemi, Machine.answer, hb]
    next hsemi =>
      rw [resume_entry hclose hsemi, ← h.depth_eq] at hanswer
      refine Turn.keeps_after (agrees_headAt m.depth hleft) (fun head j rest hlen htake hlt hrest => ?_)
        fun e htake => ?_
      · refine ⟨sound_enter h hrest.le fun name params he => ?_, by rwa [cursor_enter], ?_⟩
        · subst he
          exact lt_maxNesting htake
        · rw [hanswer, htake, answer_enter hrest hb, ← h.depth_eq]
          rfl
      · rw [hanswer, htake]
        rfl

theorem keeps_turn (h : m.Sound tokens) : (m.turn tokens).Keeps tokens m := by
  rw [Machine.turn]
  split
  next hb => exact keeps_itemTurn h hb
  next b hb => exact keeps_declarationTurn h hb

/-! ## Runs -/

theorem sound_start (tokens : List Token) : Machine.start.Sound tokens :=
  ⟨Nat.zero_le _, rfl, Nat.zero_le _⟩

theorem answer_start (tokens : List Token) : Machine.start.answer tokens = (·.value) <$> takeItems 0 tokens := by
  show resume [] [] (tokens.drop 0) = _
  rw [List.drop_zero, resume]
  dsimp only [List.length_nil]
  cases takeItems 0 tokens <;> rfl

theorem sound_of_reached (h : m.Reached tokens) : m.Sound tokens := by
  induction h with
  | refl => exact sound_start tokens
  | tail _ hturn ih =>
      have hkeeps := keeps_turn ih
      rw [hturn] at hkeeps
      exact hkeeps.1

theorem lt_of_turns (h : m.Reached tokens) (hrun : Relation.TransGen (Machine.Turns tokens) m m') :
    m.cursor < m'.cursor := by
  have hstep {m m' : Machine} (h : m.Reached tokens) (hturn : m.Turns tokens m') : m.cursor < m'.cursor := by
    have hkeeps := keeps_turn (sound_of_reached h)
    rw [hturn] at hkeeps
    exact hkeeps.2.1
  induction hrun with
  | single hturn => exact hstep h hturn
  | tail hrun hturn ih => exact Nat.lt_trans ih (hstep (h.trans hrun.to_reflTransGen) hturn)

/-- There are no more turns than tokens that are left. -/
theorem run_eq_halt {n : Nat} (h : m.Sound tokens) (hn : tokens.length - m.cursor < n) :
    ∃ cursor, m.run tokens n = .halt cursor (m.answer tokens) := by
  induction n generalizing m with
  | zero => exact absurd hn (Nat.not_lt_zero _)
  | succ n ih =>
      have hkeeps := keeps_turn h
      rw [Machine.run]
      cases hturn : m.turn tokens with
      | next m' =>
          rw [hturn] at hkeeps
          obtain ⟨hsound, hlt, hanswer⟩ := hkeeps
          have hle := hsound.cursor_le
          obtain ⟨cursor, hrun⟩ := ih hsound (by omega)
          exact ⟨cursor, hrun.trans (by rw [hanswer])⟩
      | halt cursor answer =>
          rw [hturn] at hkeeps
          obtain ⟨-, -, rfl⟩ := hkeeps
          exact ⟨cursor, rfl⟩

/-- Each turn of the loops moves the cursor forward, and so does each stretch of turns that leads back to a loop. The
cursor stays inside the text, also where reading fails, and the count of open blocks of entries is right and bounded.
Fragments end at the first stop outside brackets. So there is an answer after one more turn than there are tokens. -/
theorem reading_progresses (tokens : List Token) :
    (∀ m m' : Machine, m.Reached tokens → Relation.TransGen (Machine.Turns tokens) m m' → m.cursor < m'.cursor) ∧
      (∀ m : Machine, m.Reached tokens → m.Sound tokens ∧
        ∀ cursor answer, m.turn tokens = .halt cursor answer → m.cursor ≤ cursor ∧ cursor ≤ tokens.length) ∧
      (∀ i, i ≤ tokens.length → (∀ stop, FirstStop tokens stop 0 i (stopFrom tokens stop 0 i)) ∧
        ∀ stop ∈ [endsHead, endsValue], collect stop 0 (tokens.drop i) =
          (between tokens i (stopFrom tokens stop 0 i), tokens.drop (stopFrom tokens stop 0 i))) ∧
      (∃ cursor, Machine.start.run tokens (tokens.length + 1) = .halt cursor ((·.value) <$> takeItems 0 tokens)) ∧
      ∀ s, Token.ofText s = tokens → Sheet.read s = Sheet.ofItems <$> (·.value) <$> takeItems 0 tokens := by
  refine ⟨fun _ _ => lt_of_turns, fun m h => ⟨sound_of_reached h, fun cursor answer hturn => ?_⟩,
    fun i hle => ⟨fun stop => firstStop_stopFrom stop 0 ⟨hle, rfl⟩, fun stop hstop => ?_⟩, ?_, ?_⟩
  · have hkeeps := keeps_turn (sound_of_reached h)
    rw [hturn] at hkeeps
    exact ⟨hkeeps.1, hkeeps.2.1⟩
  · refine collect_drop ?_ hle
    rcases List.mem_pair.1 hstop with rfl | rfl
    · exact bracketless_endsHead
    · exact bracketless_endsValue
  · rw [← answer_start]
    exact run_eq_halt (sound_start tokens) (Nat.lt_succ_self _)
  · rintro s rfl
    rw [Sheet.read, readItems]
    cases takeItems 0 (Token.ofText s) <;> rfl

end TieredStyle.Css
