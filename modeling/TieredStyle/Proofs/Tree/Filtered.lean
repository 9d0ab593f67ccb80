import TieredStyle.Proofs.Tree.Halted
import TieredStyle.Proofs.Tree.Located
import TieredStyle.Proofs.Tree.Put

/-!
# Filters only select

What a filter leaves out has no part in how the walk goes on, so that the media in force are the same with any
filter. A filter gives what is located without one, less what does not pass.
-/
namespace TieredStyle.Css

/-! ## Walks that succeed -/

theorem Course.stop_append_eq_none_iff {c d : Course} :
    (c.append d).stop = none ↔ c.stop = none ∧ d.stop = none := by
  obtain ⟨steps, stop⟩ := c
  cases stop <;> simp [append]

theorem Course.stop_of_run {σ : Type} {v : Visitor σ} {c : Course} {state last : σ}
    (h : c.run v state = .ok () last) : c.stop = none := by
  rcases hrun : c.steps.forM v.act state with ⟨_, next⟩ | ⟨e, next⟩
  · rw [run_of_forM hrun] at h
    cases hstop : c.stop <;> simp_all [ended]
  · simp [run_of_error hrun] at h

theorem wholeAll_of_stop {ts : List Tree} (h : ∀ t ∈ ts, t.course.stop = none → t.Whole)
    (hstop : (allCourse ts).stop = none) : WholeAll ts := by
  induction ts with
  | nil => trivial
  | cons t ts ih =>
      rw [allCourse, Course.stop_append_eq_none_iff] at hstop
      exact ⟨h t List.mem_cons_self hstop.1, ih (fun u hu => h u (List.mem_cons_of_mem _ hu)) hstop.2⟩

namespace Sheet

variable {s : Sheet}

/-- No block is missing from a tree that a walk comes through. -/
theorem Shows.whole_of_stop {t : Tree} (h : s.Shows t) (hstop : t.course.stop = none) : t.Whole := by
  induction h with
  | @mk id node block children hn hb hc _ _ ihb ihc =>
      simp only [Tree.course, Course.stop_append_eq_none_iff] at hstop
      obtain ⟨-, hblock, hchildren, -⟩ := hstop
      refine ⟨?_, ?_, wholeAll_of_stop ihc hchildren⟩
      · cases block with
        | some b => exact isSome_of_block? hn hb
        | none => cases hclaim : node.block? <;> simp_all [blockCourse]
      · cases block with
        | none => trivial
        | some b =>
            apply ihb b rfl
            simpa [isSome_of_block? hn hb, blockCourse] using hblock

theorem whole_of_entered {order : List Nat} (h : s.entered = .ok order) : s.tree.Whole := by
  obtain ⟨reversed, hvisit, _⟩ := bind_eq_ok.1 h
  have htree : s.tree? root = some s.tree := dif_pos (show root < s.size from s.size_pos)
  apply s.shows_tree.whole_of_stop
  rw [visit] at hvisit
  split at hvisit
  next hwalk =>
    rw [walk, walkFrom_eq, courseFrom, htree] at hwalk
    exact Course.stop_of_run hwalk
  next => cases hvisit

end Sheet

/-! ## What a filter selects -/

/-- What is located meets all that the filter asks for, the media as they are normalized. -/
def Filter.Selects (f : Filter) (media : Option String) (l : Located) : Prop :=
  (∀ word ∈ f.selector, word.toList <:+: l.selector.toList) ∧ (∀ params ∈ media, l.media = some params) ∧
    ∀ state ∈ f.state, l.state = state

theorem Filter.admits_iff {f : Filter} {media : Option String} {l : Located} :
    { f with media }.admits l = true ↔ f.Selects media l := by
  simp [admits, Selects, Option.all_eq_true, Text.occurs_iff, and_assoc]

instance (f : Filter) (media : Option String) : DecidablePred (f.Selects media) := fun _ =>
  decidable_of_iff _ Filter.admits_iff

/-- On a stylesheet that can be walked, a filter whose media can be read gives what is located without a filter,
less what it does not select. -/
theorem Sheet.locate_filter {s : Sheet} {order : List Nat} {f : Filter} {media : Option String}
    (hwalk : s.entered = .ok order) (hmedia : f.media.mapM readParams = .ok media) :
    ∃ found, s.locate {} = .ok found ∧ s.locate f = .ok (found.filter (f.Selects media ·)) := by
  have hwhole := whole_of_entered hwalk
  have hall : ∀ l, Filter.admits {} l = true := fun _ => rfl
  have hfound := locate_eq (f := {}) hwhole rfl
  refine ⟨_, hfound, ?_⟩
  rw [locate_eq hwhole (mapM_reading_eq_ok.2 hmedia), List.filter_eq_self.2 fun l _ => hall l]
  congr 2
  funext l
  simp [← Filter.admits_iff]

/-- The inner `@media` rule leaves no media in force when it ends, so that the filter selects the first
declaration only. -/
theorem Sheet.locate_filter_inner : ∃ s order,
    read "@media a\x7b@media b\x7b.x\x7bc:d\x7d\x7d.x:hover\x7be:f\x7d\x7d" = .ok s ∧ s.entered = .ok order ∧
      (some "b").mapM readParams = .ok (some "b") ∧
      ∃ found, s.locate {} = .ok found ∧ found.length = 2 ∧
        s.locate { selector := some "x", media := some "b", state := some .base } =
          .ok (found.filter (Filter.Selects
            { selector := some "x", media := some "b", state := some .base } (some "b") ·)) := by
  let s := ofItems [.group "media" "a" [.group "media" "b" [.rule ".x" [⟨"c", ⟨"d", false⟩⟩]],
    .rule ".x:hover" [⟨"e", ⟨"f", false⟩⟩]]]
  have hread : read "@media a\x7b@media b\x7b.x\x7bc:d\x7d\x7d.x:hover\x7be:f\x7d\x7d" = .ok s := by
    decide +kernel
  have hwalk : s.entered = .ok (List.range s.size) := by decide +kernel
  have hmedia : (some "b").mapM readParams = .ok (some "b") := by decide +kernel
  have hall : s.locate {} = .ok [⟨⟨"c", ⟨"d", false⟩⟩, ".x", some "b", .base⟩,
      ⟨⟨"e", ⟨"f", false⟩⟩, ".x:hover", none, .hover⟩] := by decide +kernel
  obtain ⟨found, hfound, hfilter⟩ :=
    locate_filter (f := { selector := some "x", media := some "b", state := some .base }) hwalk hmedia
  cases hfound.symm.trans hall
  exact ⟨s, _, hread, hwalk, hmedia, _, hall, rfl, hfilter⟩

end TieredStyle.Css
