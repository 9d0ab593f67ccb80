import TieredStyle.Proofs.Lexing.Placed

/-!
# Texts put together

Which characters of a text belong to comments is told by its parts, if nothing that opens or closes a comment lies
across them. A filler has nothing but blanks and closed comments.
-/
namespace TieredStyle.Css
open TieredStyle.Text

/-- Whether a text ends inside a comment. The first flag tells whether it starts inside one. -/
def inComment : Bool → List Char → Bool
  | false, '/' :: '*' :: cs => inComment true cs
  | true, '*' :: '/' :: cs => inComment false cs
  | b, _ :: cs => inComment b cs
  | b, [] => b

variable {b : Bool} {c : Char} {cs ds : List Char}

/-! ## Flags of texts put together -/

theorem flagComments_cons (hopens : b = false → c = '/' → cs.head? ≠ some '*')
    (hcloses : b = true → c = '*' → cs.head? ≠ some '/') :
    flagComments b (c :: cs) = (c, b) :: flagComments b cs := by
  cases b with
  | false =>
      rw [flagComments]
      rintro ds rfl rfl
      exact hopens rfl rfl rfl
  | true =>
      rw [flagComments]
      rintro ds rfl rfl
      exact hcloses rfl rfl rfl

theorem flagComments_cons_of (hopens : ∀ ds, b = false → c = '/' → cs = '*' :: ds → False)
    (hcloses : ∀ ds, b = true → c = '*' → cs = '/' :: ds → False) :
    flagComments b (c :: cs) = (c, b) :: flagComments b cs := by
  apply flagComments_cons
  · intro hb hc hhead
    obtain ⟨ds, hcs⟩ := List.head?_eq_some_iff.1 hhead
    exact hopens ds hb hc hcs
  · intro hb hc hhead
    obtain ⟨ds, hcs⟩ := List.head?_eq_some_iff.1 hhead
    exact hcloses ds hb hc hcs

/-- Nothing that opens or closes a comment lies across the two texts. -/
theorem flagComments_append (hopens : (flagComments b cs).getLast? = some ('/', false) → ds.head? ≠ some '*')
    (hcloses : inComment b cs = true → ds.head? ≠ some '/') :
    flagComments b (cs ++ ds) = flagComments b cs ++ flagComments (inComment b cs) ds := by
  fun_induction inComment b cs with
  | case1 cs ih =>
      simp only [flagComments, List.cons_append] at hopens ⊢
      rw [ih (fun hlast => hopens (by rw [List.getLast?_cons_cons, List.getLast?_cons, hlast]; rfl)) hcloses]
  | case2 cs ih =>
      simp only [flagComments, List.cons_append] at hopens ⊢
      rw [ih (fun hlast => hopens (by rw [List.getLast?_cons_cons, List.getLast?_cons, hlast]; rfl)) hcloses]
  | case3 b c cs hnopen hnclose ih =>
      rw [flagComments_cons_of hnopen hnclose] at hopens ⊢
      have hrest := ih (fun hlast => hopens (by rw [List.getLast?_cons, hlast]; rfl)) hcloses
      rw [List.cons_append, List.cons_append, ← hrest]
      cases cs with
      | nil =>
          apply flagComments_cons
          · rintro rfl rfl
            exact hopens rfl
          · rintro rfl _
            exact hcloses rfl
      | cons d cs =>
          apply flagComments_cons
          · rintro rfl rfl hhead
            cases hhead
            exact hnopen _ rfl rfl rfl
          · rintro rfl rfl hhead
            cases hhead
            exact hnclose _ rfl rfl rfl
  | case4 => simp [flagComments]

theorem blankFrom_append (hopens : (flagComments b cs).getLast? = some ('/', false) → ds.head? ≠ some '*')
    (hcloses : inComment b cs = true → ds.head? ≠ some '/') :
    blankFrom b (cs ++ ds) = blankFrom b cs ++ blankFrom (inComment b cs) ds := by
  simp only [← flatMap_blanked, flagComments_append hopens hcloses, List.flatMap_append]

/-- Behind closed comments a text is blanked as if it stood alone. -/
theorem blankComments_append (hclosed : inComment false cs = false)
    (hopens : (flagComments false cs).getLast? = some ('/', false) → ds.head? ≠ some '*') :
    blankComments (cs ++ ds) = blankComments cs ++ blankComments ds := by
  have happend := blankFrom_append hopens fun hin => by
    rw [hclosed] at hin
    cases hin
  rwa [hclosed] at happend

/-- Inside a comment the last character belongs to it. -/
theorem getLast?_flagComments (h : inComment b cs = true) : ∀ m ∈ (flagComments b cs).getLast?, m.2 = true := by
  have hcons : ∀ {m : Char × Bool} {ms : List (Char × Bool)}, (ms = [] → m.2 = true) →
      (∀ m ∈ ms.getLast?, m.2 = true) → ∀ m' ∈ (m :: ms).getLast?, m'.2 = true := by
    intro m ms hm hms m' hm'
    cases ms with
    | nil =>
        cases hm'
        exact hm rfl
    | cons m₁ ms =>
        rw [List.getLast?_cons_cons] at hm'
        exact hms m' hm'
  fun_induction inComment b cs with
  | case1 cs ih =>
      rw [flagComments]
      exact hcons (fun _ => rfl) (hcons (fun _ => rfl) (ih h))
  | case2 cs ih =>
      rw [flagComments]
      exact hcons (fun _ => rfl) (hcons (fun hnil => by
        obtain rfl : cs = [] := by rw [← map_fst_flagComments false cs, hnil]; rfl
        cases h) (ih h))
  | case3 b c cs hnopen hnclose ih =>
      rw [flagComments_cons_of hnopen hnclose]
      refine hcons (fun hnil => ?_) (ih h)
      obtain rfl : cs = [] := by rw [← map_fst_flagComments b cs, hnil]; rfl
      rwa [inComment] at h
  | case4 =>
      intro m hm
      simp [flagComments] at hm

/-- A text that ends inside a comment ends in a blank once its comments are blanked. -/
theorem isBlank_getLast?_blankComments (h : inComment false cs = true) :
    ∀ c ∈ (blankComments cs).getLast?, isBlank c = true := by
  intro c hc
  obtain ⟨pre, hpre⟩ := List.getLast?_eq_some_iff.1 hc
  by_contra hblank
  rw [blankComments, ← flatMap_blanked] at hpre
  obtain ⟨ms, ms', hms, _, hnil⟩ := exists_of_flatMap_blanked hpre (by simpa using hblank)
  have hms' : ms' = [] := by
    rw [List.flatMap_eq_nil_iff] at hnil
    refine List.eq_nil_iff_forall_not_mem.2 fun m hm => ?_
    have hsize := utf8Len_blanked m
    rw [hnil m hm] at hsize
    exact absurd hsize.symm (Nat.ne_of_gt m.1.utf8Size_pos)
  have hlast := getLast?_flagComments h (c, false) (by rw [hms, hms', List.getLast?_concat]; rfl)
  cases hlast

/-! ## Fillers -/

/-- Blanks and closed comments. -/
structure Filler (cs : List Char) : Prop where
  closed : inComment false cs = false
  blank : ∀ m ∈ flagComments false cs, m.2 = true ∨ isBlank m.1 = true

namespace Filler

theorem blankComments (h : Filler cs) : ∀ c ∈ blankComments cs, isBlank c = true := by
  intro c hc
  rw [Css.blankComments, ← flatMap_blanked] at hc
  obtain ⟨m, hm, hc⟩ := List.mem_flatMap.1 hc
  by_contra hblank
  obtain rfl := eq_of_mem_blanked hc (by simpa using hblank)
  rcases h.blank _ hm with h | h
  · cases h
  · exact hblank h

theorem getLast?_ne (h : Filler cs) : (flagComments false cs).getLast? ≠ some ('/', false) := by
  intro hlast
  rcases h.blank _ (List.mem_of_getLast? hlast) with h | h
  · cases h
  · revert h
    decide

theorem head?_ne (h : Filler cs) : cs.head? ≠ some '*' := by
  intro hhead
  obtain ⟨cs, rfl⟩ := List.head?_eq_some_iff.1 hhead
  have hflags : flagComments false ('*' :: cs) = ('*', false) :: flagComments false cs :=
    flagComments_cons (fun _ h => by cases h) (fun h => by cases h)
  rcases h.blank ('*', false) (by rw [hflags]; exact List.mem_cons_self) with h | h
  · cases h
  · revert h
    decide

/-- Between two texts a filler adds nothing but blanks. -/
theorem blankComments_between (h : Filler cs) {ps qs : List Char} (hclosed : inComment false ps = false)
    (hopens : (flagComments false ps).getLast? = some ('/', false) → qs.head? ≠ some '*') :
    Css.blankComments (ps ++ (cs ++ qs)) =
      Css.blankComments ps ++ (Css.blankComments cs ++ Css.blankComments qs) := by
  rw [blankComments_append hclosed ?_, blankComments_append h.closed fun hlast => absurd hlast h.getLast?_ne]
  intro hlast
  cases cs with
  | nil => exact hopens hlast
  | cons c cs => exact h.head?_ne

end Filler

theorem filler_of_blank (h : ∀ c ∈ cs, isBlank c = true) : Filler cs := by
  induction cs with
  | nil => exact ⟨rfl, fun m hm => by cases hm⟩
  | cons c cs ih =>
      have hc := h c List.mem_cons_self
      have hslash : c ≠ '/' := by
        rintro rfl
        cases hc
      obtain ⟨hclosed, hblank⟩ := ih fun d hd => h d (List.mem_cons_of_mem _ hd)
      refine ⟨?_, ?_⟩
      · rw [inComment]
        · exact hclosed
        · exact fun ds _ hc _ => hslash hc
        · exact fun ds hb _ _ => by cases hb
      · rw [flagComments_cons (fun _ hc => absurd hc hslash) (fun hb => by cases hb)]
        exact List.forall_mem_cons.2 ⟨.inr hc, hblank⟩

/-- A comment that is closed where it first can be. -/
theorem filler_comment (h : ¬['*', '/'] <:+: cs) : Filler ('/' :: '*' :: (cs ++ ['*', '/'])) := by
  suffices hbody : inComment true (cs ++ ['*', '/']) = false ∧
      ∀ m ∈ flagComments true (cs ++ ['*', '/']), m.2 = true by
    refine ⟨hbody.1, ?_⟩
    rw [flagComments]
    exact List.forall_mem_cons.2 ⟨.inl rfl, List.forall_mem_cons.2 ⟨.inl rfl, fun m hm => .inl (hbody.2 m hm)⟩⟩
  induction cs with
  | nil => decide
  | cons c cs ih =>
      obtain ⟨hclosed, hflags⟩ := ih fun hin => h (hin.trans (List.suffix_cons c cs).isInfix)
      have hopen : c = '*' → (cs ++ ['*', '/']).head? ≠ some '/' := by
        rintro rfl hhead
        cases cs with
        | nil => cases hhead
        | cons d cs =>
            cases hhead
            exact h (List.prefix_append ['*', '/'] cs).isInfix
      refine ⟨?_, ?_⟩
      · rw [List.cons_append, inComment]
        · exact hclosed
        · exact fun ds hb _ _ => by cases hb
        · exact fun ds _ hc hcs => hopen hc (by rw [hcs]; rfl)
      · rw [List.cons_append, flagComments_cons (fun hb => by cases hb) (fun _ => hopen)]
        exact List.forall_mem_cons.2 ⟨rfl, hflags⟩

end TieredStyle.Css
