import TieredStyle.Proofs.Grammar.Fragment
import TieredStyle.Proofs.Grammar.Retold
import TieredStyle.Proofs.Lexing.Continued
import TieredStyle.Proofs.Lexing.Ink

/-!
# Completing what ends too early

Where tokens fail only because there are no more of them, a few marks behind them complete what they start: closing
parentheses for the open brackets, a colon or an opening brace where one is missing, and the closing braces.
-/
namespace TieredStyle.Css
open TieredStyle.Text

/-- A mark as a token. -/
def Mark.token (m : Mark) : Token := ⟨⟨.mark m, String.singleton m.char⟩, false, {}⟩

/-- The marks that complete a stylesheet. -/
def Mark.completes : Mark → Bool
  | .colon | .parenClose | .braceOpen | .braceClose => true
  | _ => false

/-! ## Runs inside brackets -/

/-- The parentheses that close what is open behind the tokens. -/
def closers (ts : List Token) : List Mark :=
  List.replicate (depthAfterAll 0 (ts.map (·.kind))) .parenClose

theorem completes_closers (ts : List Token) : ∀ m ∈ closers ts, m.completes = true := by
  intro m hm
  rw [List.eq_of_mem_replicate hm]
  rfl

theorem Clear.passes_closed {stop : Kind → Bool} {depth : Nat} {ks : List Kind} (h : Clear stop depth ks) :
    Passes stop depth (ks ++ List.replicate (depthAfterAll depth ks) (.mark .parenClose)) := by
  induction ks generalizing depth with
  | cons k ks ih => exact ⟨h.1, ih h.2⟩
  | nil =>
      rw [List.nil_append, depthAfterAll, List.foldl_nil]
      induction depth with
      | zero => rfl
      | succ depth ih => exact ⟨fun hd => absurd hd (Nat.succ_ne_zero depth), ih trivial⟩

/-- Once its brackets are closed a run ends before any stop. -/
theorem collect_closed {stop : Kind → Bool} {ts : List Token} {e : Token}
    (h : Clear stop 0 (ts.map (·.kind))) (he : stop e.kind = true) (rest : List Token) :
    collect stop 0 (ts ++ ((closers ts).map Mark.token ++ e :: rest)) =
      (ts ++ (closers ts).map Mark.token, e :: rest) := by
  rw [← List.append_assoc]
  apply collect_of_passes
  · have hkinds : ((closers ts).map Mark.token).map (·.kind) =
        List.replicate (depthAfterAll 0 (ts.map (·.kind))) (.mark .parenClose) := by
      rw [List.map_map, closers, List.map_replicate]
      rfl
    rw [List.map_append, hkinds]
    exact h.passes_closed
  · intro t ht
    cases ht
    exact he

/-- A value that ends too early ends before a closing brace behind its closed brackets. -/
theorem exists_takeValue_closed {ts : List Token} {value : Value} (h : takeValue ts = (value, [])) :
    ∃ ms : List Mark, (∀ m ∈ ms, m.completes = true) ∧ ∀ rest, ∃ value',
      takeValue (ts ++ (ms.map Mark.token ++ Mark.braceClose.token :: rest)) =
        (value', Mark.braceClose.token :: rest) := by
  obtain ⟨taken, behind, hc, _, hbehind⟩ := takeValue_eq h
  rcases hbehind with ⟨rfl, _⟩ | ⟨i, rfl, hi, _⟩
  · have hclear : Clear endsValue 0 (ts.map (·.kind)) := by rw [← collect_eq_nil_iff, hc]
    refine ⟨closers ts, completes_closers ts, fun rest =>
      ⟨⟨Spacing.value.join (ts ++ (closers ts).map Mark.token), false⟩, ?_⟩⟩
    rw [takeValue, collect_closed hclear (by rfl)]
    rfl
  · obtain ⟨rfl, hlocal⟩ := collect_before hc
    refine ⟨[], List.forall_mem_nil _, fun rest => ⟨⟨Spacing.value.join taken, true⟩, ?_⟩⟩
    rw [List.map_nil, List.nil_append, List.append_assoc, List.singleton_append, takeValue, hlocal]
    simp only [takeImportant, hi, ↓reduceIte]

/-! ## Blocks and entries -/

section

variable {w : Expectation} {x : ParseError} {ts : List Token}

theorem DeclarationsFail.completed (h : DeclarationsFail ts x) (hx : x = .unexpectedEnd w) :
    ∃ ms : List Mark, (∀ m ∈ ms, m.completes = true) ∧ ∀ rest, ∃ ds,
      DeclarationsRead (ts ++ (ms.map Mark.token ++ rest)) ds rest := by
  induction h with
  | ended => exact ⟨[.braceClose], by decide, fun rest => ⟨_, .close rfl⟩⟩
  | skip ht _ ih =>
      obtain ⟨ms, hms, hread⟩ := ih hx
      refine ⟨ms, hms, fun rest => ?_⟩
      obtain ⟨ds, hds⟩ := hread rest
      exact ⟨ds, .skip ht hds⟩
  | name => cases hx
  | colonEnded ht =>
      exact ⟨[.colon, .braceClose], by decide, fun rest => ⟨_, .declare ht rfl rfl (.inr rfl) (.close rfl)⟩⟩
  | colon => cases hx
  | valueEnded ht hu hv =>
      obtain ⟨ms, hms, htake⟩ := exists_takeValue_closed hv
      refine ⟨ms ++ [.braceClose], ?_, fun rest => ?_⟩
      · exact List.forall_mem_append.2 ⟨hms, by decide⟩
      · obtain ⟨value', hvalue⟩ := htake rest
        rw [List.map_append, List.append_assoc]
        exact ⟨_, .declare ht hu hvalue (.inr rfl) (.close rfl)⟩
  | value => cases hx
  | declare ht hu hv he _ ih =>
      obtain ⟨front, rfl, hlocal⟩ := takeValue_before hv
      obtain ⟨ms, hms, hread⟩ := ih hx
      refine ⟨ms, hms, fun rest => ?_⟩
      obtain ⟨ds, hds⟩ := hread rest
      have hdeclare := DeclarationsRead.declare ht hu (hlocal _) (.inl he) (.skip he hds)
      exact ⟨_, by simpa using hdeclare⟩

/-- What ends the entries of a block, and of a whole stylesheet. -/
def ends (depth : Nat) : List Mark := if depth = 0 then [] else [.braceClose]

theorem completes_ends (depth : Nat) : ∀ m ∈ ends depth, m.completes = true := by
  unfold ends
  split <;> decide

theorem itemsRead_ends {depth : Nat} {rest : List Token} (h : depth = 0 → rest = []) :
    ItemsRead depth ((ends depth).map Mark.token ++ rest) [] rest := by
  unfold ends
  split
  next hd =>
    rw [h hd, hd]
    exact .finish
  next hd => exact .close hd rfl

/-- Marks complete what follows an entry, whose own tokens stay as they are. -/
theorem ItemsFail.completed {depth : Nat} (h : ItemsFail depth ts x) (hx : x = .unexpectedEnd w) :
    ∃ ms : List Mark, (∀ m ∈ ms, m.completes = true) ∧ ∀ rest, (depth = 0 → rest = []) →
      ∃ items, ItemsRead depth (ts ++ (ms.map Mark.token ++ rest)) items rest := by
  induction h with
  | @ended depth hd =>
      exact ⟨ends depth, completes_ends depth, fun rest hrest => ⟨_, itemsRead_ends hrest⟩⟩
  | unmatched => cases hx
  | skip ht _ ih =>
      obtain ⟨ms, hms, hread⟩ := ih hx
      refine ⟨ms, hms, fun rest hrest => ?_⟩
      obtain ⟨items, hitems⟩ := hread rest hrest
      exact ⟨items, .skip ht hitems⟩
  | selector => cases hx
  | @headEnded depth t ts head hk hend hc =>
      have hclear : Clear endsHead 0 ((t :: ts).map (·.kind)) := by rw [← collect_eq_nil_iff, hc]
      refine ⟨closers (t :: ts) ++ .braceOpen :: .braceClose :: ends depth, ?_, fun rest hrest => ?_⟩
      · refine List.forall_mem_append.2 ⟨completes_closers _, ?_⟩
        exact List.forall_mem_cons.2 ⟨rfl, List.forall_mem_cons.2 ⟨rfl, completes_ends depth⟩⟩
      · rw [List.map_append, List.append_assoc]
        exact ⟨_, .rule hk hend (collect_closed hclear rfl _) rfl (.close rfl) (itemsRead_ends hrest)⟩
  | head => cases hx
  | @ruleBody depth t e ts head us _ hk hend hc he hds =>
      obtain ⟨head', rfl, hlocal⟩ := collect_cons_before hend hc
      obtain ⟨ms, hms, hread⟩ := hds.completed hx
      refine ⟨ms ++ ends depth, List.forall_mem_append.2 ⟨hms, completes_ends depth⟩, fun rest hrest => ?_⟩
      obtain ⟨ds, hds'⟩ := hread ((ends depth).map Mark.token ++ rest)
      have hrule := ItemsRead.rule hk hend (hlocal _) he hds' (itemsRead_ends hrest)
      exact ⟨_, by simpa using hrule⟩
  | @rule depth t e ts head us vs ds _ hk hend hc he hds _ ih =>
      obtain ⟨head', rfl, hlocal⟩ := collect_cons_before hend hc
      obtain ⟨b, body, rfl, hbody⟩ := hds.before
      obtain ⟨ms, hms, hread⟩ := ih hx
      refine ⟨ms, hms, fun rest hrest => ?_⟩
      obtain ⟨items, hitems⟩ := hread rest hrest
      have hrule := ItemsRead.rule hk hend (hlocal _) he (hbody _) hitems
      exact ⟨_, by simpa using hrule⟩
  | @statement depth t ts head us _ hk hc he hfail ih =>
      cases us with
      | nil =>
          have hclear : Clear endsHead 0 (ts.map (·.kind)) := by rw [← collect_eq_nil_iff, hc]
          cases hfail with
          | ended hd =>
              refine ⟨closers ts ++ [.braceClose], ?_, fun rest _ => ?_⟩
              · exact List.forall_mem_append.2 ⟨completes_closers ts, by decide⟩
              · have hstatement := ItemsRead.statement hk (collect_closed hclear (by rfl) rest)
                  (fun e he => by cases he; rfl) (.close (t := Mark.braceClose.token) hd rfl)
                exact ⟨_, by simpa using hstatement⟩
      | cons e us =>
          obtain ⟨rfl, hlocal⟩ := collect_before hc
          obtain ⟨ms, hms, hread⟩ := ih hx
          refine ⟨ms, hms, fun rest hrest => ?_⟩
          obtain ⟨items, hitems⟩ := hread rest hrest
          have hstatement := ItemsRead.statement hk (hlocal (us ++ (ms.map Mark.token ++ rest)))
            (fun e' he' => he e' he') hitems
          exact ⟨_, by simpa using hstatement⟩
  | tooDeep => cases hx
  | @descriptorsBody depth t e ts head us _ hk hn hc he hds =>
      obtain ⟨rfl, hlocal⟩ := collect_before hc
      obtain ⟨ms, hms, hread⟩ := hds.completed hx
      refine ⟨ms ++ ends depth, List.forall_mem_append.2 ⟨hms, completes_ends depth⟩, fun rest hrest => ?_⟩
      obtain ⟨ds, hds'⟩ := hread ((ends depth).map Mark.token ++ rest)
      have hdescriptors := ItemsRead.descriptors hk hn (hlocal _) he hds' (itemsRead_ends hrest)
      exact ⟨_, by simpa using hdescriptors⟩
  | @descriptors depth t e ts head us vs ds _ hk hn hc he hds _ ih =>
      obtain ⟨rfl, hlocal⟩ := collect_before hc
      obtain ⟨b, body, rfl, hbody⟩ := hds.before
      obtain ⟨ms, hms, hread⟩ := ih hx
      refine ⟨ms, hms, fun rest hrest => ?_⟩
      obtain ⟨items, hitems⟩ := hread rest hrest
      have hdescriptors := ItemsRead.descriptors hk hn (hlocal _) he (hbody _) hitems
      exact ⟨_, by simpa using hdescriptors⟩
  | @groupBody depth t e ts head us _ hk hn hc he hd _ ih =>
      obtain ⟨rfl, hlocal⟩ := collect_before hc
      obtain ⟨ms, hms, hread⟩ := ih hx
      refine ⟨ms ++ ends depth, List.forall_mem_append.2 ⟨hms, completes_ends depth⟩, fun rest hrest => ?_⟩
      obtain ⟨body, hbody⟩ := hread ((ends depth).map Mark.token ++ rest) fun h => by cases h
      have hgroup := ItemsRead.group hk hn (hlocal _) he hd hbody (itemsRead_ends hrest)
      exact ⟨_, by simpa using hgroup⟩
  | @group depth t e ts head us vs body _ hk hn hc he hd hbody _ ih =>
      obtain ⟨rfl, hlocal⟩ := collect_before hc
      obtain ⟨b, front, rfl, hbefore⟩ := hbody.before (Nat.succ_ne_zero depth)
      obtain ⟨ms, hms, hread⟩ := ih hx
      refine ⟨ms, hms, fun rest hrest => ?_⟩
      obtain ⟨items, hitems⟩ := hread rest hrest
      have hgroup := ItemsRead.group hk hn (hlocal _) he hd (hbefore _) hitems
      exact ⟨_, by simpa using hgroup⟩

end

/-! ## Texts -/

theorem Token.Resumes.akin {t u : Token} (h : t.Resumes u) : t.Akin u := by
  rcases h with rfl | ⟨ht, hu⟩
  · exact ⟨rfl, fun _ => rfl⟩
  · exact ⟨hu.trans ht.symm, fun hk => by rw [ht] at hk; cases hk⟩

theorem head?_marks (ms : List Mark) : ∀ c ∈ (ms.map Mark.char).head?, isBlank c = false := by
  intro c hc
  obtain ⟨m, _, rfl⟩ := List.mem_map.1 (List.mem_of_mem_head? hc)
  cases m <;> rfl

theorem startsImportant_marks (ms : List Mark) : startsImportant (ms.map Mark.char) = false := by
  cases ms with
  | nil => rfl
  | cons m ms => cases m <;> simp [startsImportant, Mark.char]

section

variable {ms : List Mark} (hms : ∀ m ∈ ms, m.completes = true)

include hms

theorem akin_scan_marks (pos : Position) (b : Bool) :
    List.Forall₂ Token.Akin (ms.map Mark.token) (Token.scan pos b (ms.map Mark.char)) := by
  induction ms generalizing pos b with
  | nil =>
      rw [List.map_nil, List.map_nil, Token.scan_nil]
      exact .nil
  | cons m ms ih =>
      obtain ⟨hm, hms'⟩ := List.forall_mem_cons.1 hms
      have hdot : m ≠ .dot := by
        rintro rfl
        cases hm
      have hscan := Token.scan_stops (stops_mark hdot (ms.map Mark.char)) pos b
      rw [String.toList_singleton, List.singleton_append] at hscan
      rw [List.map_cons, List.map_cons, hscan]
      exact .cons ⟨rfl, fun h => by cases h⟩ (ih hms' _ _)

theorem uncommented_marks : Uncommented ('\n' :: ms.map Mark.char) := by
  have hslash : ∀ m ∈ ms, m.char ≠ '/' := by
    intro m hm
    have hm := hms m hm
    cases m <;> first | decide | cases hm
  rw [uncommented_cons]
  refine ⟨fun h => absurd h (by decide), ?_⟩
  induction ms with
  | nil => exact .nil
  | cons m ms ih =>
      rw [List.map_cons, uncommented_cons]
      refine ⟨fun h => absurd h (hslash m List.mem_cons_self), ?_⟩
      exact ih (fun m hm => hms m (List.mem_cons_of_mem _ hm)) fun m hm => hslash m (List.mem_cons_of_mem _ hm)

end

/-- What completes a text: the end of its comment, and marks on another line. -/
def completion (s : String) (ms : List Mark) : String :=
  String.ofList ((if inComment false s.toList then ['*', '/'] else []) ++ '\n' :: ms.map Mark.char)

/-- A comment that is closed leaves two spaces, behind more of them. -/
theorem blankComments_completion (s : String) {ms : List Mark} (hms : ∀ m ∈ ms, m.completes = true) :
    ∃ u : List Char, blankComments (s ++ completion s ms).toList =
      blankComments s.toList ++ (u ++ '\n' :: ms.map Mark.char) ∧ (∀ c ∈ u, c = ' ') ∧
        (u = [] ∨ (blankComments s.toList).getLast? ≠ some '\\') := by
  have hmarks : blankComments ('\n' :: ms.map Mark.char) = '\n' :: ms.map Mark.char :=
    blankComments_of_uncommented (uncommented_marks hms)
  rw [completion, String.toList_append, String.toList_ofList]
  cases hin : inComment false s.toList with
  | false =>
      have happend := blankComments_append hin fun _ (h : ('\n' :: ms.map Mark.char).head? = _) => by cases h
      rw [hmarks] at happend
      exact ⟨[], happend, List.forall_mem_nil _, .inl rfl⟩
  | true =>
      refine ⟨[' ', ' '], ?_, by simp, .inr fun hlast => ?_⟩
      · have happend : blankFrom false (s.toList ++ '*' :: '/' :: '\n' :: ms.map Mark.char) = _ :=
          blankFrom_append (fun hlast => by cases getLast?_flagComments hin _ hlast) fun _ h => by cases h
        rw [hin, blankFrom] at happend
        exact happend.trans (congrArg (fun cs => blankComments s.toList ++ ' ' :: ' ' :: cs) hmarks)
      · have hblank := isBlank_getLast?_blankComments hin _ hlast
        revert hblank
        decide

theorem akin_ofText_completion (s : String) {ms : List Mark} (hms : ∀ m ∈ ms, m.completes = true) :
    List.Forall₂ Token.Akin (Token.ofText s ++ ms.map Mark.token) (Token.ofText (s ++ completion s ms)) := by
  obtain ⟨u, hblanked, hu, hescape⟩ := blankComments_completion s hms
  obtain ⟨ts, pos, b, hscan, hts⟩ := Token.scan_line hu (head?_marks ms) (startsImportant_marks ms) hescape
  rw [Token.ofText, Token.ofText, hblanked, hscan]
  exact List.rel_append (hts.imp fun _ _ h => h.akin) (akin_scan_marks hms pos b)

/-- A text that fails only because it ends too early is the start of a stylesheet. -/
theorem exists_completion {s : String} {w : Expectation} (h : Sheet.read s = .error (.unexpectedEnd w)) :
    ∃ t sheet, Sheet.read (s ++ t) = .ok sheet := by
  obtain ⟨ms, hms, hread⟩ := (Sheet.read_eq_error_iff.1 h).completed rfl
  obtain ⟨items, hitems⟩ := hread [] fun _ => rfl
  rw [List.append_nil] at hitems
  have hretold : Retold False (Token.ofText s ++ ms.map Mark.token) (Token.ofText (s ++ completion s ms)) :=
    ⟨akin_ofText_completion s hms, fun h => h.elim⟩
  obtain ⟨items', rest, hread', _, hrest⟩ := hitems.retold hretold
  rw [hrest.nil] at hread'
  exact ⟨completion s ms, _, Sheet.read_eq_ok_iff.2 ⟨items', hread', rfl⟩⟩

/-- Inside a comment, behind a string literal with no end, in brackets and in two blocks. -/
theorem exists_completion_comment :
    Sheet.read "@media m\x7b.a\x7bb:c(d '\\/*" = .error (.unexpectedEnd .braceClose) ∧
      ∃ t sheet, Sheet.read ("@media m\x7b.a\x7bb:c(d '\\/*" ++ t) = .ok sheet := by
  have h : Sheet.read "@media m\x7b.a\x7bb:c(d '\\/*" = .error (.unexpectedEnd .braceClose) := by
    have hmap : (fun _ => ()) <$> Sheet.read "@media m\x7b.a\x7bb:c(d '\\/*" =
        .error (.unexpectedEnd .braceClose) := by decide +kernel
    exact map_eq_error.1 hmap
  exact ⟨h, exists_completion h⟩

end TieredStyle.Css
