import TieredStyle.Proofs.Tree.Traversed

/-!
# Walks that a visitor ends

A visitor decides how far a walk goes and nothing else about its course. The callback that fails is the last
one, and the walk ends with its error. If none fails then the walk goes as far as that of any visitor.
-/
namespace TieredStyle.Css

variable {σ τ : Type}

namespace Visitor

/-- A visitor that fails nowhere, in no state. -/
def Tireless (v : Visitor σ) : Prop := ∀ (e : Event) (state : σ), ∃ next, v.act e state = .ok () next

/-- Of the callbacks for these events the last one fails, and no other. -/
def FailsAtLast (v : Visitor σ) (state : σ) (made : List Event) (err : ShapeError) (last : σ) : Prop :=
  ∃ before e mid, made = before ++ [e] ∧ before.forM v.act state = .ok () mid ∧ v.act e mid = .error err last

theorem Tireless.not_failsAtLast {v : Visitor σ} (h : v.Tireless) (state : σ) (made : List Event)
    (err : ShapeError) (last : σ) : ¬ v.FailsAtLast state made err last := by
  rintro ⟨_, e, mid, _, _, hfail⟩
  obtain ⟨next, hnext⟩ := h e mid
  simp [hnext] at hfail

theorem FailsAtLast.cons {v : Visitor σ} {e : Event} {state next : σ} {made : List Event} {err : ShapeError}
    {last : σ} (he : v.act e state = .ok () next) (h : v.FailsAtLast next made err last) :
    v.FailsAtLast state (e :: made) err last := by
  obtain ⟨before, e', mid, rfl, hbefore, hfail⟩ := h
  refine ⟨e :: before, e', mid, rfl, ?_, hfail⟩
  simp [forM_act_cons, he, hbefore]

end Visitor

/-- The callbacks for some events all succeed, and all are logged, or the log ends with the one that fails. -/
theorem forM_logging_cases (v : Visitor σ) (es log : List Event) (state : σ) :
    (∃ last, es.forM v.act state = .ok () last ∧
      es.forM v.logging.act (log, state) = .ok () (log ++ es, last)) ∨
    ∃ made err last, made <+: es ∧ v.FailsAtLast state made err last ∧
      es.forM v.act state = .error err last ∧
      es.forM v.logging.act (log, state) = .error err (log ++ made, last) := by
  induction es generalizing log state with
  | nil =>
      left
      exact ⟨state, rfl, by simp; rfl⟩
  | cons e es ih =>
      simp only [forM_act_cons, act_logging]
      cases he : v.act e state with
      | error err last =>
          right
          refine ⟨[e], err, last, by simp, ⟨[], e, state, rfl, rfl, he⟩, rfl, rfl⟩
      | ok u next =>
          simp only [logged]
          rcases ih (log ++ [e]) next with ⟨last, hrun, hlog⟩ | ⟨made, err, last, hmade, hfails, hrun, hlog⟩
          · left
            exact ⟨last, hrun, by simpa using hlog⟩
          · right
            refine ⟨e :: made, err, last, by simpa using hmade, hfails.cons he, hrun, by simpa using hlog⟩

/-! ## What stops a course -/

/-- Nothing but a missing block stops the course. -/
def Course.LacksBlock (c : Course) : Prop := ∀ e, c.stop = some e → ∃ kind, e = .missingBlock kind

theorem Course.lacksBlock_of_none {c : Course} (h : c.stop = none) : c.LacksBlock := by
  simp [LacksBlock, h]

theorem Course.LacksBlock.append {c d : Course} (hc : c.LacksBlock) (hd : d.LacksBlock) :
    (c.append d).LacksBlock := by
  rw [Course.append]
  split
  · exact hc
  · exact hd

mutual
theorem Tree.lacksBlock_course (t : Tree) : t.course.LacksBlock := by
  match t with
  | .mk id node block children =>
      have hblock : (if node.block?.isSome then blockCourse node.kind block else .nil).LacksBlock := by
        split
        · exact lacksBlock_blockCourse node.kind block
        · exact Course.lacksBlock_of_none rfl
      have hleave : (Course.step (.leave id node)).LacksBlock := Course.lacksBlock_of_none rfl
      rw [Tree.course]
      apply (Course.lacksBlock_of_none rfl).append
      exact hblock.append ((lacksBlock_allCourse children).append hleave)

theorem lacksBlock_blockCourse (owner : NodeKind) (block : Option Tree) :
    (blockCourse owner block).LacksBlock := by
  match block with
  | none =>
      rintro e ⟨⟩
      exact ⟨owner, rfl⟩
  | some t => exact t.lacksBlock_course

theorem lacksBlock_allCourse (ts : List Tree) : (allCourse ts).LacksBlock := by
  match ts with
  | [] => exact Course.lacksBlock_of_none rfl
  | t :: ts => exact t.lacksBlock_course.append (lacksBlock_allCourse ts)
end

/-! ## Walks from a node -/

/-- The error with which a walk ends, if it ends with one. -/
def failure? : EStateM.Result ShapeError σ Unit → Option ShapeError
  | .ok .. => none
  | .error e _ => some e

/-- How a walk ends in a state: with an error, or well. -/
def ended (stop : Option ShapeError) (state : σ) : EStateM.Result ShapeError σ Unit :=
  match stop with
  | none => .ok () state
  | some e => .error e state

theorem Course.run_of_forM {v : Visitor σ} {c : Course} {state last : σ}
    (h : c.steps.forM v.act state = .ok () last) : c.run v state = ended c.stop last := by
  obtain ⟨steps, stop⟩ := c
  cases stop <;> simp only [Course.run, bind, EStateM.bind, h] <;> rfl

theorem Course.run_of_error {v : Visitor σ} {c : Course} {state last : σ} {err : ShapeError}
    (h : c.steps.forM v.act state = .error err last) : c.run v state = .error err last := by
  simp only [Course.run, bind, EStateM.bind, h]

namespace Sheet

/-- The course of a walk from a node. -/
def courseFrom (s : Sheet) (id : Nat) : Course :=
  match s.tree? id with
  | none => ⟨[], some .missingNode⟩
  | some t => t.course

theorem walkFrom_eq (s : Sheet) (id : Nat) (v : Visitor σ) : s.walkFrom id v = (s.courseFrom id).run v := by
  rw [walkFrom, courseFrom]
  cases s.tree? id with
  | none => simp [Course.run]
  | some t => exact t.walk_eq v

theorem stop_courseFrom (s : Sheet) (id : Nat) {e : ShapeError} (h : (s.courseFrom id).stop = some e) :
    e = .missingNode ∨ ∃ kind, e = .missingBlock kind := by
  rw [courseFrom] at h
  split at h
  · left
    exact (Option.some.inj h).symm
  next t _ =>
    right
    exact t.lacksBlock_course e h

/-- A walk goes through its course, or through a part of it that ends with the callback that fails. -/
theorem walkFrom_cases (s : Sheet) (id : Nat) (v : Visitor σ) (state : σ) :
    (∃ last, (s.courseFrom id).steps.forM v.act state = .ok () last ∧
      s.Logs v id state (s.courseFrom id).steps ∧
      s.walkFrom id v state = ended (s.courseFrom id).stop last) ∨
    ∃ made err last, made <+: (s.courseFrom id).steps ∧ v.FailsAtLast state made err last ∧
      s.Logs v id state made ∧ s.walkFrom id v state = .error err last := by
  simp only [Logs, walkFrom_eq]
  rcases forM_logging_cases v (s.courseFrom id).steps [] state with
    ⟨last, hrun, hlog⟩ | ⟨made, err, last, hmade, hfails, hrun, hlog⟩
  · left
    refine ⟨last, hrun, ?_, Course.run_of_forM hrun⟩
    rw [Course.run_of_forM hlog, Course.run_of_forM hrun]
    cases (s.courseFrom id).stop <;> rfl
  · right
    refine ⟨made, err, last, hmade, hfails, ?_, Course.run_of_error hrun⟩
    rw [Course.run_of_error hlog, Course.run_of_error hrun]
    rfl

/-- A visitor that fails ends the walk with the callback that fails. One that does not comes through all that a
visitor that never fails comes through, and its walk ends as that one does. -/
theorem walkFrom_halts (s : Sheet) (id : Nat) (v : Visitor σ) (state : σ) {w : Visitor τ} (hw : w.Tireless)
    (init : τ) :
    ∃ made all, s.Logs v id state made ∧ s.Logs w id init all ∧ made <+: all ∧
      (∀ e, failure? (s.walkFrom id w init) = some e → e = .missingNode ∨ ∃ kind, e = .missingBlock kind) ∧
      ((∃ e last, v.FailsAtLast state made e last ∧ s.walkFrom id v state = .error e last) ∨
        ∃ last, made = all ∧ made.forM v.act state = .ok () last ∧
          s.walkFrom id v state = ended (failure? (s.walkFrom id w init)) last) := by
  obtain ⟨end', hall, hlogs, hend⟩ : ∃ last, (s.courseFrom id).steps.forM w.act init = .ok () last ∧
      s.Logs w id init (s.courseFrom id).steps ∧ s.walkFrom id w init = ended (s.courseFrom id).stop last := by
    rcases s.walkFrom_cases id w init with h | ⟨_, _, _, _, hfails, _⟩
    · exact h
    · exact absurd hfails (hw.not_failsAtLast _ _ _ _)
  have hfailure : failure? (s.walkFrom id w init) = (s.courseFrom id).stop := by
    rw [hend]
    cases (s.courseFrom id).stop <;> rfl
  have hstop : ∀ e, failure? (s.walkFrom id w init) = some e →
      e = .missingNode ∨ ∃ kind, e = .missingBlock kind := by
    intro e he
    exact s.stop_courseFrom id (hfailure ▸ he)
  rcases s.walkFrom_cases id v state with ⟨last, hrun, hlog, hresult⟩ |
    ⟨made, e, last, hmade, hfails, hlog, hresult⟩
  · refine ⟨_, _, hlog, hlogs, List.prefix_refl _, hstop, .inr ⟨last, rfl, hrun, ?_⟩⟩
    rw [hfailure, hresult]
  · exact ⟨made, _, hlog, hlogs, hmade, hstop, .inl ⟨e, last, hfails, hresult⟩⟩

/-- The visitor fails at the rule. Without it the walk would go one step further and end at the block, since
the rule claims the root. -/
theorem walkFrom_halts_rewired :
    let s := empty.revise [.edit (.rule 0 ".a"), .overwrite 1 (.rule ".a" (some 0))]
    let v : Visitor Nat := ⟨fun id _ => if id = 1 then throw (.invalidChild .rule) else modify (· + 1),
      fun _ _ => pure ()⟩
    let w : Visitor Unit := ⟨fun _ _ => pure (), fun _ _ => pure ()⟩
    w.Tireless ∧ ∃ made all, s.Logs v 0 0 made ∧ s.Logs w 0 () all ∧ made <+: all ∧
      (∀ e, failure? (s.walkFrom 0 w ()) = some e → e = .missingNode ∨ ∃ kind, e = .missingBlock kind) ∧
      ((∃ e last, v.FailsAtLast 0 made e last ∧ s.walkFrom 0 v 0 = .error e last) ∨
        ∃ last, made = all ∧ made.forM v.act 0 = .ok () last ∧
          s.walkFrom 0 v 0 = ended (failure? (s.walkFrom 0 w ())) last) := by
  intro s v w
  have hw : w.Tireless := by
    intro e state
    cases e <;> exact ⟨(), rfl⟩
  exact ⟨hw, s.walkFrom_halts 0 v 0 hw ()⟩

end Sheet

end TieredStyle.Css
