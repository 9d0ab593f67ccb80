import TieredStyle.Proofs.Style.Values

/-!
# What comes of reading an object

An object is read member by member. Its key may be refused, then what stands behind the key is read, and at the
closing brace something is made of the members. Whatever has been read, the members can go on so that something
comes of them.
-/
namespace TieredStyle.Style
open Json

section

variable {α β σ : Type}

/-! ## Members -/

/-- A key, if it will do. -/
def keyThen (check : String → Except ReadError Unit) : Reader String := fun cs =>
  (require (mark? '"' cs)).bind (textThen fun key => (check key).map fun _ => key)

/-- What is made of what has been read. -/
def finished (finish : σ → Except ReadError β) (r : Reader σ) : Reader β := fun cs =>
  (r cs).bind fun p => (finish p.1).map fun b => (b, p.2)

/-- What comes behind a member. -/
def afterMember (step : σ → String → (cs : List Char) → Taken σ cs) (finish : σ → Except ReadError β) (state : σ) :
    Reader β := fun cs =>
  match mark? '\x7d' cs with
  | some rest => (finish state).map fun b => (b, rest)
  | none => (require (mark? ',' cs)).bind (finished finish (plain (takeMembers step state)))

/-- How the members of an object are read. -/
structure Members (step : σ → String → (cs : List Char) → Taken σ cs) (check : σ → String → Except ReadError Unit)
    (field : σ → String → Reader σ) (finish : σ → Except ReadError β) : Prop where
  step_eq (state : σ) (key : String) (cs : List Char) :
    plain (step state key) cs = (check state key).bind fun _ => field state key cs
  check_empty (state : σ) : check state "" = .ok ()
  check_ne {state : σ} {key : String} {e : ReadError} : check state key = .error e → e ≠ .notJson
  agrees (state : σ) (key : String) : Agrees (field state key) field? Valueless
  finish_ne {state : σ} {e : ReadError} : finish state = .error e → e ≠ .notJson
  completes (state : σ) : ∃ key used state' b,
    check state key = .ok () ∧ Reads (field state key) field? used state' ∧ finish state' = .ok b

variable {step : σ → String → (cs : List Char) → Taken σ cs} {check : σ → String → Except ReadError Unit}
  {field : σ → String → Reader σ} {finish : σ → Except ReadError β} {cs w : List Char}

theorem plain_takeMembers (step : σ → String → (cs : List Char) → Taken σ cs) (state : σ) (cs : List Char) :
    plain (takeMembers step state) cs = (require (mark? '"' cs)).bind fun rest => (require (letters? rest)).bind
      fun p => (plain (step state (String.ofList p.1)) p.2).bind fun q =>
        match mark? '\x7d' q.2 with
        | some rest => .ok (q.1, rest)
        | none => (require (mark? ',' q.2)).bind (plain (takeMembers step q.1)) := by
  rw [plain, takeMembers]
  unfold mark? letters? takeText
  cases takeMark '"' cs with
  | none => rfl
  | some p =>
      obtain ⟨rest₀, h₀⟩ := p
      simp only [require, bind, Except.bind, Option.map_some]
      cases takeChars rest₀ with
      | none => rfl
      | some q =>
          obtain ⟨key, rest₁, h₁⟩ := q
          simp only [Option.map_some, Parsed.map, pair, plain]
          cases step state (String.ofList key) rest₁ with
          | error e => rfl
          | ok p₂ =>
              obtain ⟨state', rest₂, h₂⟩ := p₂
              simp only [Except.map, pair]
              cases takeMark '\x7d' rest₂ with
              | some p₃ => rfl
              | none =>
                  cases takeMark ',' rest₂ with
                  | none => rfl
                  | some p₃ =>
                      obtain ⟨rest₃, h₃⟩ := p₃
                      simp only [Option.map_some]
                      cases takeMembers step state' rest₃ <;> rfl

theorem Members.finished_takeMembers (h : Members step check field finish) (state : σ) :
    finished finish (plain (takeMembers step state)) =
      andThen (keyThen (check state)) fun key => andThen (field state key) (afterMember step finish) := by
  funext cs
  rw [finished, plain_takeMembers]
  unfold andThen keyThen textThen afterMember finished
  cases mark? '"' cs with
  | none => rfl
  | some rest =>
      simp only [require, Except.bind]
      cases letters? rest with
      | none => rfl
      | some p =>
          simp only [h.step_eq]
          cases check state (String.ofList p.1) with
          | error e => rfl
          | ok _ =>
              simp only [Except.bind, Except.map]
              cases field state (String.ofList p.1) p.2 with
              | error e => rfl
              | ok q =>
                  dsimp only
                  cases mark? '\x7d' q.2 with
                  | some rest' => rfl
                  | none => cases mark? ',' q.2 <;> rfl

/-! ## Completing -/

theorem keyThen_quote {check : String → Except ReadError Unit} (hw : Blanks w) (rest : List Char) :
    keyThen check (w ++ '"' :: rest) = textThen (fun key => (check key).map fun _ => key) rest := by
  rw [keyThen, mark?_self hw (by decide)]
  rfl

theorem string?_quote (hw : Blanks w) (rest : List Char) : string? (w ++ '"' :: rest) = chars? rest := by
  rw [string?, andThen?, mark?_self hw (by decide), Option.bind_some]

theorem reads_key {check : String → Except ReadError Unit} {key : String} (hw : Blanks w) (hkey : check key = .ok ()) :
    Reads (keyThen check) string? (w ++ (text key).toList) key :=
  reads_text (keyThen_quote hw) (string?_quote hw) (by rw [hkey]; rfl)

theorem afterMember_close (hw : Blanks w) (state : σ) (rest : List Char) :
    afterMember step finish state (w ++ '\x7d' :: rest) = (finish state).map fun b => (b, rest) := by
  rw [afterMember, mark?_self hw (by decide)]

theorem afterMember_comma (hw : Blanks w) (state : σ) (rest : List Char) :
    afterMember step finish state (w ++ ',' :: rest) = finished finish (plain (takeMembers step state)) rest := by
  rw [afterMember, mark?_of_ne hw (by decide) (by decide), mark?_self hw (by decide)]
  rfl

theorem isClose_brace : IsClose '\x7d' := .inr rfl

theorem goes_tail?_brace (cs rest : List Char) (h : tail? '\x7d' cs = some rest) : Goes EndsNumeral cs :=
  goes_of_tail? isClose_brace.endsNumeral h

theorem Members.exists_reads (h : Members step check field finish) (hw : Blanks w) (state : σ) :
    ∃ more b, Reads (finished finish (plain (takeMembers step state))) (series? '\x7d') (w ++ more) b := by
  obtain ⟨key, used, state', b, hkey, hfield, hfinish⟩ := h.completes state
  have hclose : Reads (afterMember step finish state') (tail? '\x7d') ['\x7d'] b := by
    intro rest _
    have hnil : Blanks [] := List.forall_mem_nil _
    have hread : afterMember step finish state' ('\x7d' :: rest) = (finish state').map fun b => (b, rest) :=
      afterMember_close hnil state' rest
    rw [hfinish] at hread
    exact ⟨hread, tail?_self isClose_brace hnil rest⟩
  rw [h.finished_takeMembers, series?_brace]
  refine ⟨(text key).toList ++ (used ++ ['\x7d']), b, ?_⟩
  rw [← List.append_assoc]
  exact (reads_key hw hkey).andThen (hfield.andThen hclose goes_tail?_brace) fun _ _ => goes_of_field?_tail?

theorem Members.exists_reads_after (h : Members step check field finish) (hw : Blanks w) (state : σ) :
    ∃ more b, Reads (afterMember step finish state) (tail? '\x7d') (w ++ more) b := by
  obtain ⟨more, b, hmore⟩ := h.exists_reads (List.forall_mem_nil _) state
  exact ⟨',' :: more, b, hmore.behind_mark (afterMember_comma hw state) (tail?_comma isClose_brace hw)⟩

/-! ## Outcomes -/

theorem Members.outcome_after (h : Members step check field finish) {state : σ}
    (hmembers : ∀ w rest, cs = w ++ ',' :: rest →
      Outcome (finished finish (plain (takeMembers step state))) (series? '\x7d') Valueless rest) :
    Outcome (afterMember step finish state) (tail? '\x7d') Valueless cs := by
  cases hclose : mark? '\x7d' cs with
  | some rest =>
      obtain ⟨-, w, hw, rfl⟩ := exists_of_mark? hclose
      exact .mark (finish state) (by decide) (by decide) (afterMember_close hw state) (tail?_self isClose_brace hw)
        (fun e he => ⟨h.finish_ne he, h.exists_reads_after hw state⟩) rest
  | none =>
      cases hcomma : mark? ',' cs with
      | some rest =>
          obtain ⟨-, w, hw, rfl⟩ := exists_of_mark? hcomma
          exact (hmembers w rest rfl).behind_mark (afterMember_comma hw state) (tail?_comma isClose_brace hw)
      | none =>
          refine .broken ?_ ?_
          · rw [afterMember, hclose, hcomma]
            rfl
          · rw [tail?, hclose, hcomma, Option.bind_none]

theorem Members.outcome_key (h : Members step check field finish) (state : σ) (cs : List Char) :
    Outcome (keyThen (check state)) string? Valueless cs := by
  cases hquote : mark? '"' cs with
  | none =>
      refine .broken ?_ ?_
      · rw [keyThen, hquote]
        rfl
      · rw [string?, andThen?, hquote, Option.bind_none]
  | some rest =>
      obtain ⟨-, w, hw, rfl⟩ := exists_of_mark? hquote
      refine .quoted (a := "") (keyThen_quote hw) (string?_quote hw) ?_ (fun key e he => ?_) rest
      · rw [h.check_empty]
        rfl
      · cases hkey : check state key with
        | ok _ =>
            rw [hkey] at he
            cases he
        | error e' =>
            rw [hkey] at he
            cases he
            exact h.check_ne hkey

theorem cutsAt_field? (cs : List Char) : CutsAt field? cs := .marked fun _ rest _ => cutsAt_skip? rest

theorem Members.outcome_members (h : Members step check field finish) (state : σ) (cs : List Char) :
    Outcome (finished finish (plain (takeMembers step state))) (series? '\x7d') Valueless cs := by
  -- on the length, for every state: behind a comma the text is shorter and the state another
  induction hn : cs.length using Nat.strong_induction_on generalizing cs state with
  | _ n ih =>
    subst hn
    have hafter (state : σ) : ∃ used b, Reads (afterMember step finish state) (tail? '\x7d') used b :=
      h.exists_reads_after (List.forall_mem_nil _) state
    rw [h.finished_takeMembers, series?_brace]
    refine (h.outcome_key state cs).andThen (fun _ _ _ h => h) (fun key rest _ hrest => ?_)
      (fun _ _ => goes_of_field?_tail?) fun key => ?_
    · have hrest := (cutsAt_string? cs).length_le hrest
      refine ((h.agrees state key).outcome rest).andThen (fun _ _ _ h => h) (fun state' more _ hmore => ?_)
        goes_tail?_brace hafter
      have hmore := (cutsAt_field? rest).length_le hmore
      refine h.outcome_after fun w last hlast => ih last.length ?_ state' last rfl
      simp only [hlast, List.length_append, List.length_cons] at hmore
      omega
    · obtain ⟨used, state', hfield⟩ := (h.agrees state key).reads
      obtain ⟨used', b, hused'⟩ := hafter state'
      exact ⟨used ++ used', b, hfield.andThen hused' goes_tail?_brace⟩

theorem plain_takeObject (step : σ → String → (cs : List Char) → Taken σ cs) (state : σ) (cs : List Char) :
    plain (takeObject step state) cs = match mark? '\x7d' cs with
      | some rest => .ok (state, rest)
      | none => plain (takeMembers step state) cs := by
  rw [plain, takeObject, mark?]
  cases takeMark '\x7d' cs <;> rfl

/-- An object behind its opening brace. -/
theorem Members.agrees_object (h : Members step check field finish) (state : σ) :
    Agrees (finished finish (plain (takeObject step state))) (interior? '\x7d') Valueless := by
  have hmembers (cs : List Char) (hmark : mark? '\x7d' cs = none) :
      finished finish (plain (takeObject step state)) cs = finished finish (plain (takeMembers step state)) cs := by
    rw [finished, plain_takeObject, hmark]
    rfl
  have hreads {w : List Char} (hw : Blanks w) :
      ∃ more b, Reads (finished finish (plain (takeObject step state))) (interior? '\x7d') (w ++ more) b := by
    obtain ⟨more, b, hmore⟩ := h.exists_reads hw state
    exact ⟨more, b, hmore.interior isClose_brace hmembers⟩
  refine ⟨fun cs => ?_, hreads (List.forall_mem_nil _)⟩
  cases hmark : mark? '\x7d' cs with
  | none => exact (h.outcome_members state cs).interior isClose_brace hmark hmembers
  | some rest =>
      obtain ⟨-, w, hw, rfl⟩ := exists_of_mark? hmark
      refine .mark (finish state) (by decide) (by decide) (fun rest => ?_) (interior?_self isClose_brace hw)
        (fun e he => ⟨h.finish_ne he, hreads hw⟩) rest
      rw [finished, plain_takeObject, mark?_self hw (by decide)]
      rfl

end

end TieredStyle.Style
