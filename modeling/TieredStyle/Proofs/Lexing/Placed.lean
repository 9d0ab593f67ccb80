import Mathlib.Algebra.GroupWithZero.Nat
import Mathlib.Data.List.DropRight
import Mathlib.Data.String.Basic
import TieredStyle.Proofs.Lexing.Scan

/-!
# Places in a text with comments

Blanking puts one space for each byte of a comment, so a token keeps its byte and its line. Its column counts a
character of a comment as often as it has bytes.
-/
namespace TieredStyle.Css
open TieredStyle.Text

/-! ## The characters of comments -/

/-- The characters of a text, each with whether it belongs to a comment. The first flag tells whether the text starts
inside a comment. -/
def flagComments : Bool → List Char → List (Char × Bool)
  | false, '/' :: '*' :: cs => ('/', true) :: ('*', true) :: flagComments true cs
  | true, '*' :: '/' :: cs => ('*', true) :: ('/', true) :: flagComments false cs
  | true, c :: cs => (c, true) :: flagComments true cs
  | false, c :: cs => (c, false) :: flagComments false cs
  | _, [] => []

/-- What blanking puts for a character. -/
def blanked (m : Char × Bool) : List Char :=
  if m.2 = true ∧ m.1 ≠ '\n' then List.replicate m.1.utf8Size ' ' else [m.1]

theorem map_fst_flagComments (b : Bool) (cs : List Char) : (flagComments b cs).map Prod.fst = cs := by
  fun_induction flagComments b cs with
  | case1 cs ih => simp [ih]
  | case2 cs ih => simp [ih]
  | case3 c cs _ ih => simp [ih]
  | case4 c cs _ ih => simp [ih]
  | case5 => rfl

theorem flatMap_blanked (b : Bool) (cs : List Char) : (flagComments b cs).flatMap blanked = blankFrom b cs := by
  fun_induction flagComments b cs with
  | case1 cs ih =>
      simp only [List.flatMap_cons, ih, blankFrom]
      rfl
  | case2 cs ih =>
      simp only [List.flatMap_cons, ih, blankFrom]
      rfl
  | case3 c cs _ ih =>
      by_cases hline : c = '\n'
      · subst hline
        simp [blankFrom, blanked, ih]
      · simp [blankFrom, blanked, ih, hline]
  | case4 c cs _ ih => simp [blankFrom, blanked, ih]
  | case5 => simp [blankFrom]

/-- A character outside comments is where flagging could start anew. -/
theorem flagComments_eq_append {b : Bool} {cs : List Char} {ms ms' : List (Char × Bool)} {c : Char}
    (h : flagComments b cs = ms ++ (c, false) :: ms') :
    flagComments false (c :: ms'.map Prod.fst) = (c, false) :: ms' := by
  have hskip : ∀ {d : Char} {ns ms : List (Char × Bool)}, (d, true) :: ns = ms ++ (c, false) :: ms' →
      ∃ ms₁, ns = ms₁ ++ (c, false) :: ms' := by
    intro d ns ms h
    cases ms with
    | nil => cases h
    | cons m ms => exact ⟨ms, (List.cons.inj h).2⟩
  fun_induction flagComments b cs generalizing ms with
  | case1 cs ih =>
      obtain ⟨_, h⟩ := hskip h
      obtain ⟨_, h⟩ := hskip h
      exact ih h
  | case2 cs ih =>
      obtain ⟨_, h⟩ := hskip h
      obtain ⟨_, h⟩ := hskip h
      exact ih h
  | case3 d cs _ ih =>
      obtain ⟨_, h⟩ := hskip h
      exact ih h
  | case4 d cs hstart ih =>
      cases ms with
      | nil =>
          cases h
          rw [map_fst_flagComments, flagComments]
          exact hstart
      | cons m ms => exact ih (List.cons.inj h).2
  | case5 => simp at h

theorem eq_of_mem_blanked {m : Char × Bool} {c : Char} (hc : c ∈ blanked m) (hb : isBlank c = false) :
    m = (c, false) := by
  obtain ⟨d, b⟩ := m
  unfold blanked at hc
  split at hc
  · rw [List.eq_of_mem_replicate hc] at hb
    cases hb
  next hflag =>
    obtain rfl := List.mem_singleton.1 hc
    have hline : c ≠ '\n' := by
      rintro rfl
      cases hb
    simpa [hline] using hflag

/-- What is not blank in a blanked text is a character outside comments. -/
theorem exists_of_flatMap_blanked {ms : List (Char × Bool)} {pre post : List Char} {c : Char}
    (h : ms.flatMap blanked = pre ++ c :: post) (hc : isBlank c = false) :
    ∃ ms₁ ms₂, ms = ms₁ ++ (c, false) :: ms₂ ∧ ms₁.flatMap blanked = pre ∧ ms₂.flatMap blanked = post := by
  induction ms generalizing pre with
  | nil => simp at h
  | cons m ms ih =>
      rw [List.flatMap_cons, List.append_eq_append_iff] at h
      rcases h with ⟨as, rfl, h⟩ | ⟨bs, hm, h⟩
      · obtain ⟨ms₁, ms₂, rfl, rfl, hpost⟩ := ih h
        exact ⟨m :: ms₁, ms₂, rfl, rfl, hpost⟩
      cases bs with
      | nil =>
          have hms : ms.flatMap blanked = [] ++ c :: post := h.symm
          obtain ⟨ms₁, ms₂, rfl, hpre, hpost⟩ := ih hms
          refine ⟨m :: ms₁, ms₂, rfl, ?_, hpost⟩
          rw [List.flatMap_cons, hpre, hm]
          simp
      | cons c' bs =>
          obtain ⟨rfl, rfl⟩ := List.cons.inj h
          obtain rfl := eq_of_mem_blanked (m := m) (by rw [hm]; simp) hc
          have hone : [c] = pre ++ c :: bs := hm
          cases pre with
          | nil =>
              obtain ⟨_, rfl⟩ := List.cons.inj hone
              exact ⟨[], ms, rfl, rfl, rfl⟩
          | cons => simp at hone

/-! ## Lines, columns and bytes -/

section

variable (ms : List (Char × Bool))

theorem count_blanked (m : Char × Bool) : (blanked m).count '\n' = [m.1].count '\n' := by
  unfold blanked
  split
  next h => simp [List.count_replicate, h.2]
  · rfl

theorem utf8Len_blanked (m : Char × Bool) : String.utf8Len (blanked m) = m.1.utf8Size := by
  have hspaces : ∀ n, String.utf8Len (List.replicate n ' ') = n := by
    intro n
    induction n with
    | zero => rfl
    | succ n ih =>
        rw [List.replicate_succ, String.utf8Len_cons, ih]
        rfl
  unfold blanked
  split
  · exact hspaces _
  · simp

/-- Blanking keeps the number of bytes. -/
theorem utf8Len_flatMap_blanked : String.utf8Len (ms.flatMap blanked) = String.utf8Len (ms.map Prod.fst) := by
  induction ms with
  | nil => rfl
  | cons m ms ih =>
      rw [List.flatMap_cons, List.map_cons, String.utf8Len_append, String.utf8Len_cons, utf8Len_blanked, ih,
        Nat.add_comm]

theorem line_flatMap_blanked :
    (({} : Position).skip (ms.flatMap blanked)).line = 1 + (ms.map Prod.fst).count '\n' := by
  have hcount : (ms.flatMap blanked).count '\n' = (ms.map Prod.fst).count '\n' := by
    induction ms with
    | nil => rfl
    | cons m ms ih =>
        rw [List.flatMap_cons, List.map_cons, List.count_append, count_blanked, ih, ← List.count_append]
        rfl
  rw [Position.line_skip, hcount]

/-- How many columns a character takes up: one, or in a comment one for each of its bytes. -/
def columns (m : Char × Bool) : Nat := if m.2 then m.1.utf8Size else 1

/-- What stands on the last line. -/
def lastLine : List (Char × Bool) := ms.rtakeWhile fun m => m.1 != '\n'

theorem column_flatMap_blanked :
    (({} : Position).skip (ms.flatMap blanked)).column = 1 + ((lastLine ms).map columns).sum := by
  unfold lastLine
  induction ms using List.reverseRecOn with
  | nil => rfl
  | append_singleton ms m ih =>
      rw [List.flatMap_append, List.flatMap_singleton, Position.skip_append]
      by_cases hline : m.1 = '\n'
      · have hfeed : blanked m = ['\n'] := by simp [blanked, hline]
        rw [hfeed, List.rtakeWhile_concat_neg _ _ _ (by simp [hline])]
        rfl
      · have hnot : '\n' ∉ blanked m := by
          rw [← List.count_eq_zero, count_blanked]
          simp [hline]
        have hlength : (blanked m).length = columns m := by
          unfold blanked columns
          cases m.2 <;> simp [hline]
        rw [Position.column_skip hnot, ih, hlength, List.rtakeWhile_concat_pos _ _ _ (by simp [hline])]
        simp [Nat.add_assoc]

theorem one_le_columns (m : Char × Bool) : 1 ≤ columns m := by
  unfold columns
  split
  · exact m.1.utf8Size_pos
  · exact Nat.le_refl 1

/-- The columns are the characters unless one in a comment has more than one byte. -/
theorem sum_columns_eq_length_iff :
    (ms.map columns).sum = ms.length ↔ ∀ m ∈ ms, m.2 = true → m.1.utf8Size = 1 := by
  have hle : ∀ ms : List (Char × Bool), ms.length ≤ (ms.map columns).sum := by
    intro ms
    induction ms with
    | nil => exact Nat.le_refl 0
    | cons m ms ih =>
        have hone := one_le_columns m
        simp only [List.map_cons, List.sum_cons, List.length_cons]
        omega
  induction ms with
  | nil => simp
  | cons m ms ih =>
      have hone := one_le_columns m
      have hms := hle ms
      have hcolumns : columns m = 1 ↔ (m.2 = true → m.1.utf8Size = 1) := by
        unfold columns
        split <;> simp_all
      simp only [List.forall_mem_cons, ← ih, ← hcolumns, List.map_cons, List.sum_cons, List.length_cons]
      omega

theorem length_lastLine : (lastLine ms).length = ((ms.map Prod.fst).rtakeWhile (· != '\n')).length := by
  unfold lastLine
  induction ms using List.reverseRecOn with
  | nil => rfl
  | append_singleton ms m ih =>
      simp only [List.map_append, List.map_cons, List.map_nil, List.rtakeWhile_concat]
      split
      · simp [ih]
      · rfl

end

/-! ## Where a token starts -/

namespace Token

/-- A token of a scan stands where what is before it ends, and the scan of the rest gives it and what follows. -/
theorem scan_eq_append {pos : Position} {b : Bool} {cs : List Char} {us vs : List Token} {t : Token}
    (h : scan pos b cs = us ++ t :: vs) : ∃ pre r, cs = pre ++ (t.text.toList ++ r) ∧ (us ≠ [] → pre ≠ []) ∧
      t.start = pos.skip pre ∧ t.Stops r ∧ vs = scan (t.start.skip t.text.toList) false r := by
  induction cs using scan_induction generalizing pos b us with
  | nil =>
      rw [scan_nil] at h
      simp at h
  | blank c cs hc ih =>
      rw [scan_blank hc] at h
      obtain ⟨pre, r, rfl, _, hstart, hr⟩ := ih h
      exact ⟨c :: pre, r, rfl, fun _ => List.cons_ne_nil c pre, hstart, hr⟩
  | lexeme l r hl ih =>
      rw [scan_stops hl] at h
      cases us with
      | nil =>
          obtain ⟨rfl, rfl⟩ := List.cons.inj h
          exact ⟨[], r, rfl, absurd rfl, rfl, hl, rfl⟩
      | cons u us =>
          obtain ⟨pre, r, rfl, _, hstart, hr⟩ := ih (List.cons.inj h).2
          refine ⟨l.text.toList ++ pre, r, by simp, fun _ he => ?_, ?_, hr⟩
          · exact hl.text_ne_nil (List.append_eq_nil_iff.1 he).1
          · rw [Position.skip_append]
            exact hstart

/-- No two tokens of a text start at one place. -/
theorem start_ne {pos : Position} {b : Bool} {cs : List Char} {us vs ws : List Token} {t t' : Token}
    (h : scan pos b cs = us ++ t :: (vs ++ t' :: ws)) : t'.start ≠ t.start := by
  obtain ⟨_, _, _, _, _, ht, hrest⟩ := scan_eq_append h
  obtain ⟨pre, _, _, _, hstart, _⟩ := scan_eq_append hrest.symm
  rw [hstart, ← Position.skip_append]
  apply Position.skip_ne
  intro he
  exact ht.text_ne_nil (List.append_eq_nil_iff.1 he).1

/-- The token stands in the text behind `ms` and starts what is left, from the byte on at which it starts when comments
are blanked; `vs` are the tokens behind it. -/
structure Behind (s : String) (ms : List (Char × Bool)) (back : List Char) (t : Token) (vs : List Token) : Prop where
  text : s.toList = ms.map Prod.fst ++ back
  flags : flagComments false s.toList = ms ++ flagComments false back
  bytes : String.utf8Len (ms.flatMap blanked) = String.utf8Len (ms.map Prod.fst)
  start : t.start = ({} : Position).skip (ms.flatMap blanked)
  spelled : t.text.toList <+: blankComments back
  tokens : scan t.start t.spaced (blankComments back) = t :: vs

theorem exists_behind {s : String} {us vs : List Token} {t : Token} (h : ofText s = us ++ t :: vs) :
    ∃ ms back, Behind s ms back t vs := by
  obtain ⟨pre, r, hcs, _, hstart, hstops, hvs⟩ := scan_eq_append h
  obtain ⟨c, cs, htext, hc, _⟩ := id hstops
  have hflat : (flagComments false s.toList).flatMap blanked = pre ++ c :: (cs ++ r) := by
    rw [flatMap_blanked, ← List.cons_append, ← htext]
    exact hcs
  obtain ⟨ms, ms', hms, rfl, hpost⟩ := exists_of_flatMap_blanked hflat hc
  have hflags := flagComments_eq_append hms
  have hblank : blankComments (c :: ms'.map Prod.fst) = t.text.toList ++ r := by
    unfold blankComments
    rw [← flatMap_blanked, hflags, List.flatMap_cons, hpost, htext]
    rfl
  refine ⟨ms, c :: ms'.map Prod.fst, ?_, ?_, utf8Len_flatMap_blanked ms, hstart, ?_, ?_⟩
  · rw [← map_fst_flagComments false s.toList, hms]
    simp
  · rw [hflags]
    exact hms
  · rw [hblank]
    exact List.prefix_append _ _
  · rw [hblank, scan_stops hstops, hvs]

end Token

end TieredStyle.Css
