import TieredStyle.Proofs.Json.Skipped
import TieredStyle.Style.Json.Read

/-!
# What comes of reading

Reading and skipping go over the same text. Either both take the same text off the front, or a piece of the text
settles the fault whatever follows it, though a value could still come of the text, or the text goes on as JSON
does not, and reading says so.
-/
namespace TieredStyle.Style
open Json

/-- Reading from the front of a text, without the bound on the rest. -/
abbrev Reader (α : Type) := List Char → Except ReadError (α × List Char)

def plain {α : Type} (take : (cs : List Char) → Taken α cs) : Reader α := fun cs => (take cs).map pair

def andThen {α β : Type} (r₁ : Reader α) (r₂ : α → Reader β) : Reader β :=
  fun cs => (r₁ cs).bind fun p => r₂ p.1 p.2

def mapped {α β : Type} (f : α → β) (r : Reader α) : Reader β := fun cs => (r cs).map fun p => (f p.1, p.2)

section

variable {α β : Type} {r r' r₁ : Reader α} {r₂ : α → Reader β}
  {skip skip' skip₁ skip₂ : List Char → Option (List Char)} {K K₁ : List Char → List Char → Prop}
  {cs used rest pre tok w : List Char} {a : α} {b : β} {e : ReadError} {c close : Char}

/-- What is read as a value, and skipped, in front of all that ends a number. -/
def Reads (r : Reader α) (skip : List Char → Option (List Char)) (used : List Char) (a : α) : Prop :=
  ∀ rest, Goes EndsNumeral rest → r (used ++ rest) = .ok (a, rest) ∧ skip (used ++ rest) = some rest

/-- A piece of a text that settles what is wrong with it. Instead of the piece something could stand that makes
the text a value to read, and behind the piece something that makes it a value to skip. If the text is said to
be no JSON, the piece and what could stand instead are of a certain kind. -/
structure Fault (r : Reader α) (skip : List Char → Option (List Char)) (K : List Char → List Char → Prop)
    (pre tok : List Char) (e : ReadError) : Prop where
  head : ∃ c more, tok = c :: more ∧ isBlank c = false
  begins : ∃ more a, Reads r skip (pre ++ more) a ∧ (e = .notJson → K tok more)
  settled : ∀ rest, Stops tok rest → r (pre ++ (tok ++ rest)) = .error e
  viable : ∃ more, ∀ rest, Goes EndsNumeral rest →
    Stops tok (more ++ rest) ∧ skip (pre ++ (tok ++ (more ++ rest))) = some rest

/-- What comes of reading a text, beside what comes of skipping it. -/
inductive Outcome (r : Reader α) (skip : List Char → Option (List Char)) (K : List Char → List Char → Prop)
    (cs : List Char) : Prop
  | read {a : α} {used rest : List Char} : cs = used ++ rest → Reads r skip used a → r cs = .ok (a, rest) →
      skip cs = some rest → Outcome r skip K cs
  | fault {pre tok rest : List Char} {e : ReadError} : cs = pre ++ (tok ++ rest) → Stops tok rest →
      Fault r skip K pre tok e → Outcome r skip K cs
  | broken : r cs = .error .notJson → skip cs = none → Outcome r skip K cs

/-- Reading that goes along with skipping on every text, and that some text satisfies. -/
structure Agrees (r : Reader α) (skip : List Char → Option (List Char)) (K : List Char → List Char → Prop) :
    Prop where
  outcome (cs : List Char) : Outcome r skip K cs
  reads : ∃ used a, Reads r skip used a

/-! ## One thing behind another -/

theorem Reads.andThen (h₁ : Reads r₁ skip₁ used a) (h₂ : Reads (r₂ a) skip₂ rest b)
    (hgoes : ∀ cs rest, skip₂ cs = some rest → Goes EndsNumeral cs) :
    Reads (Style.andThen r₁ r₂) (andThen? skip₁ skip₂) (used ++ rest) b := by
  intro rest' hrest'
  obtain ⟨hread₂, hskip₂⟩ := h₂ rest' hrest'
  obtain ⟨hread₁, hskip₁⟩ := h₁ _ (hgoes _ _ hskip₂)
  rw [List.append_assoc, Style.andThen, andThen?, hread₁, hskip₁]
  exact ⟨hread₂, hskip₂⟩

theorem Reads.behind (h : Reads r' skip' used a) (w : List Char) (hr : ∀ cs, r (w ++ cs) = r' cs)
    (hskip : ∀ cs, skip (w ++ cs) = skip' cs) : Reads r skip (w ++ used) a := by
  intro rest hrest
  rw [List.append_assoc, hr, hskip]
  exact h rest hrest

theorem Fault.behind (h : Fault r' skip' K pre tok e) (w : List Char) (hr : ∀ cs, r (w ++ cs) = r' cs)
    (hskip : ∀ cs, skip (w ++ cs) = skip' cs) : Fault r skip K (w ++ pre) tok e where
  head := h.head
  begins := by
    obtain ⟨more, a, hmore, hK⟩ := h.begins
    exact ⟨more, a, (List.append_assoc w pre more).symm ▸ hmore.behind w hr hskip, hK⟩
  settled rest hrest := by
    rw [List.append_assoc, hr]
    exact h.settled rest hrest
  viable := by
    obtain ⟨more, hmore⟩ := h.viable
    refine ⟨more, fun rest hrest => ?_⟩
    rw [List.append_assoc, hskip]
    exact hmore rest hrest

/-- Something behind a beginning that is always the same. -/
theorem Outcome.behind (h : Outcome r' skip' K cs) (w : List Char) (hr : ∀ cs, r (w ++ cs) = r' cs)
    (hskip : ∀ cs, skip (w ++ cs) = skip' cs) : Outcome r skip K (w ++ cs) := by
  cases h with
  | @read a used rest hcs hreads hread hskipped =>
      exact .read (by rw [hcs, List.append_assoc]) (hreads.behind w hr hskip) (by rw [hr, hread])
        (by rw [hskip, hskipped])
  | fault hcs hstops hfault =>
      exact .fault (by rw [hcs, List.append_assoc]) hstops (hfault.behind w hr hskip)
  | broken hread hskipped => exact .broken (by rw [hr, hread]) (by rw [hskip, hskipped])

theorem Reads.behind_mark (h : Reads r' skip' used a) (hr : ∀ cs, r (w ++ c :: cs) = r' cs)
    (hskip : ∀ cs, skip (w ++ c :: cs) = skip' cs) : Reads r skip (w ++ c :: used) a := by
  have hbehind : Reads r skip ((w ++ [c]) ++ used) a := h.behind (w ++ [c]) (fun cs => by simpa using hr cs)
    (fun cs => by simpa using hskip cs)
  simpa using hbehind

theorem Outcome.behind_mark (h : Outcome r' skip' K cs) (hr : ∀ cs, r (w ++ c :: cs) = r' cs)
    (hskip : ∀ cs, skip (w ++ c :: cs) = skip' cs) : Outcome r skip K (w ++ c :: cs) := by
  have hbehind : Outcome r skip K ((w ++ [c]) ++ cs) := h.behind (w ++ [c]) (fun cs => by simpa using hr cs)
    (fun cs => by simpa using hskip cs)
  simpa using hbehind

theorem goes_of_append {p : Char → Prop} (hhead : ∃ c more, tok = c :: more ∧ isBlank c = false)
    (h : Goes p (pre ++ (tok ++ rest))) (rest' : List Char) : Goes p (pre ++ (tok ++ rest')) := by
  obtain ⟨c, more, rfl, -⟩ := hhead
  cases pre with
  | nil => exact h
  | cons d pre => exact h

/-- A fault in the first of two things. -/
theorem Fault.andThen_left (h : Fault r₁ skip₁ K₁ pre tok e)
    (hK : ∀ tok more more', K₁ tok more → K tok (more ++ more'))
    (hgoes : ∀ cs rest, skip₂ cs = some rest → Goes EndsNumeral cs) (hc : ∀ a, ∃ used b, Reads (r₂ a) skip₂ used b) :
    Fault (andThen r₁ r₂) (andThen? skip₁ skip₂) K pre tok e where
  head := h.head
  begins := by
    obtain ⟨more, a, hmore, hKmore⟩ := h.begins
    obtain ⟨used, b, hused⟩ := hc a
    exact ⟨more ++ used, b, List.append_assoc pre more used ▸ hmore.andThen hused hgoes,
      fun he => hK _ _ _ (hKmore he)⟩
  settled rest hrest := by
    rw [andThen, h.settled rest hrest]
    rfl
  viable := by
    obtain ⟨more, a, hmore, -⟩ := h.begins
    obtain ⟨used, b, hused⟩ := hc a
    obtain ⟨more, hmore⟩ := h.viable
    refine ⟨more ++ used, fun rest hrest => ?_⟩
    obtain ⟨-, hskip₂⟩ := hused rest hrest
    obtain ⟨hstops, hskip₁⟩ := hmore _ (hgoes _ _ hskip₂)
    rw [List.append_assoc, andThen?, hskip₁]
    exact ⟨hstops, hskip₂⟩

/-- A fault in the second of two things. -/
theorem Fault.andThen_right (h₁ : Reads r₁ skip₁ used a) (h : Fault (r₂ a) skip₂ K pre tok e)
    (hgoes : ∀ cs rest, skip₂ cs = some rest → Goes EndsNumeral cs) :
    Fault (andThen r₁ r₂) (andThen? skip₁ skip₂) K (used ++ pre) tok e where
  head := h.head
  begins := by
    obtain ⟨more, b, hmore, hK⟩ := h.begins
    exact ⟨more, b, (List.append_assoc used pre more).symm ▸ h₁.andThen hmore hgoes, hK⟩
  settled rest hrest := by
    -- what is read first has to be ended, and the text that makes the piece viable begins as this one does
    obtain ⟨more, hmore⟩ := h.viable
    have hrest' : Goes EndsNumeral (pre ++ (tok ++ rest)) :=
      goes_of_append h.head (hgoes _ _ (hmore [] goes_nil).2) rest
    rw [List.append_assoc, andThen, (h₁ _ hrest').1]
    exact h.settled rest hrest
  viable := by
    obtain ⟨more, hmore⟩ := h.viable
    refine ⟨more, fun rest hrest => ?_⟩
    obtain ⟨hstops, hskip₂⟩ := hmore rest hrest
    rw [List.append_assoc, andThen?, (h₁ _ (hgoes _ _ hskip₂)).2]
    exact ⟨hstops, hskip₂⟩

/-- One thing and then another. For the fault of the first it matters that the second can be completed. -/
theorem Outcome.andThen (h₁ : Outcome r₁ skip₁ K₁ cs)
    (hK : ∀ tok more more', K₁ tok more → K tok (more ++ more'))
    (h₂ : ∀ a rest, r₁ cs = .ok (a, rest) → skip₁ cs = some rest → Outcome (r₂ a) skip₂ K rest)
    (hgoes : ∀ cs rest, skip₂ cs = some rest → Goes EndsNumeral cs)
    (hc : ∀ a, ∃ used b, Reads (r₂ a) skip₂ used b) :
    Outcome (Style.andThen r₁ r₂) (andThen? skip₁ skip₂) K cs := by
  cases h₁ with
  | @read a used rest hcs hreads hread hskipped =>
      have hbehind : Style.andThen r₁ r₂ cs = r₂ a rest := by
        rw [Style.andThen, hread]
        rfl
      have hskip : andThen? skip₁ skip₂ cs = skip₂ rest := by
        rw [andThen?, hskipped, Option.bind_some]
      cases h₂ a rest hread hskipped with
      | read hcs₂ hreads₂ hread₂ hskipped₂ =>
          exact .read (by rw [hcs, hcs₂, List.append_assoc]) (hreads.andThen hreads₂ hgoes)
            (by rw [hbehind, hread₂]) (by rw [hskip, hskipped₂])
      | fault hcs₂ hstops hfault =>
          exact .fault (by rw [hcs, hcs₂, List.append_assoc]) hstops (hfault.andThen_right hreads hgoes)
      | broken hread₂ hskipped₂ => exact .broken (by rw [hbehind, hread₂]) (by rw [hskip, hskipped₂])
  | fault hcs hstops hfault => exact .fault hcs hstops (hfault.andThen_left hK hgoes hc)
  | broken hread hskipped =>
      refine .broken ?_ ?_
      · rw [Style.andThen, hread]
        rfl
      · rw [andThen?, hskipped, Option.bind_none]

theorem Reads.map (h : Reads r skip used a) (f : α → β) :
    Reads (mapped f r) skip used (f a) := by
  intro rest hrest
  obtain ⟨hread, hskip⟩ := h rest hrest
  exact ⟨by rw [mapped, hread]; rfl, hskip⟩

theorem Fault.map (h : Fault r skip K pre tok e) (f : α → β) : Fault (mapped f r) skip K pre tok e where
  head := h.head
  begins := by
    obtain ⟨more, a, hmore, hK⟩ := h.begins
    exact ⟨more, f a, hmore.map f, hK⟩
  settled rest hrest := by
    rw [mapped, h.settled rest hrest]
    rfl
  viable := h.viable

theorem Outcome.map (h : Outcome r skip K cs) (f : α → β) : Outcome (mapped f r) skip K cs := by
  cases h with
  | read hcs hreads hread hskipped => exact .read hcs (hreads.map f) (by rw [mapped, hread]; rfl) hskipped
  | fault hcs hstops hfault => exact .fault hcs hstops (hfault.map f)
  | broken hread hskipped => exact .broken (by rw [mapped, hread]; rfl) hskipped

theorem Outcome.mono (h : Outcome r skip K₁ cs) (hK : ∀ tok more, K₁ tok more → K tok more) :
    Outcome r skip K cs := by
  cases h with
  | read hcs hreads hread hskipped => exact .read hcs hreads hread hskipped
  | fault hcs hstops hfault =>
      obtain ⟨more, a, hmore, hKmore⟩ := hfault.begins
      exact .fault hcs hstops
        ⟨hfault.head, ⟨more, a, hmore, fun he => hK _ _ (hKmore he)⟩, hfault.settled, hfault.viable⟩
  | broken hread hskipped => exact .broken hread hskipped

theorem Agrees.andThen (h₁ : Agrees r₁ skip₁ K₁) (hK : ∀ tok more more', K₁ tok more → K tok (more ++ more'))
    (h₂ : ∀ a, Agrees (r₂ a) skip₂ K) (hgoes : ∀ cs rest, skip₂ cs = some rest → Goes EndsNumeral cs) :
    Agrees (Style.andThen r₁ r₂) (andThen? skip₁ skip₂) K where
  outcome cs := (h₁.outcome cs).andThen hK (fun a rest _ _ => (h₂ a).outcome rest) hgoes fun a => (h₂ a).reads
  reads := by
    obtain ⟨used, a, hused⟩ := h₁.reads
    obtain ⟨used', b, hused'⟩ := (h₂ a).reads
    exact ⟨used ++ used', b, hused.andThen hused' hgoes⟩

theorem Agrees.map (h : Agrees r skip K) (f : α → β) : Agrees (mapped f r) skip K where
  outcome cs := (h.outcome cs).map f
  reads := by
    obtain ⟨used, a, hused⟩ := h.reads
    exact ⟨used, f a, hused.map f⟩

/-! ## What closes -/

/-- A mark at which reading is over, with a value or with a fault. -/
theorem Outcome.mark (result : Except ReadError α) (hc : isBlank c = false)
    (hnumeral : ¬BeginsNumeral c) (hr : ∀ rest, r (w ++ c :: rest) = result.map fun a => (a, rest))
    (hskip : ∀ rest, skip (w ++ c :: rest) = some rest)
    (hbegins : ∀ e, result = .error e → e ≠ .notJson ∧ ∃ more a, Reads r skip (w ++ more) a)
    (rest : List Char) : Outcome r skip K (w ++ c :: rest) := by
  cases hresult : result with
  | ok a =>
      rw [hresult] at hr
      have hcs : w ++ c :: rest = (w ++ [c]) ++ rest := by simp
      refine .read (a := a) hcs (fun rest' _ => ?_) (hr rest) (hskip rest)
      rw [List.append_assoc, List.singleton_append]
      exact ⟨hr rest', hskip rest'⟩
  | error e =>
      rw [hresult] at hr
      obtain ⟨hne, more, a, hmore⟩ := hbegins e hresult
      have hcs : w ++ c :: rest = w ++ ([c] ++ rest) := rfl
      refine .fault hcs (stops_of_ne hnumeral [] rest)
        ⟨⟨c, [], rfl, hc⟩, ⟨more, a, hmore, fun he => absurd he hne⟩, fun rest' _ => hr rest', [], fun rest' _ => ?_⟩
      exact ⟨stops_of_ne hnumeral [] rest', hskip rest'⟩

theorem mark?_congr (hhead : ∃ c more, tok = c :: more ∧ isBlank c = false) (c : Char) (rest rest' : List Char)
    (h : mark? c (pre ++ (tok ++ rest)) = none) : mark? c (pre ++ (tok ++ rest')) = none := by
  obtain ⟨d, more, rfl, hd⟩ := hhead
  obtain ⟨w, hw, rfl | ⟨d', more', hd', rfl⟩⟩ := exists_blanks pre
  · rw [List.cons_append, mark?_cons hw hd] at h ⊢
    split at h
    next => cases h
    next hne => rw [if_neg hne]
  · simp only [List.append_assoc, List.cons_append, mark?_cons hw hd'] at h ⊢
    split at h
    next => cases h
    next hne => rw [if_neg hne]

theorem Reads.interior (hclose : IsClose close) (h : Reads r' (series? close) used a)
    (hr : ∀ cs, mark? close cs = none → r cs = r' cs) : Reads r (interior? close) used a := by
  intro rest hrest
  obtain ⟨hread, hskip⟩ := h rest hrest
  exact ⟨by rw [hr _ (mark?_of_series? hclose hskip), hread], interior?_of_series? hclose hskip⟩

/-- What stands between brackets, if it is not nothing. -/
theorem Outcome.interior (hclose : IsClose close) (h : Outcome r' (series? close) K cs)
    (hmark : mark? close cs = none) (hr : ∀ cs, mark? close cs = none → r cs = r' cs) :
    Outcome r (interior? close) K cs := by
  cases h with
  | read hcs hreads hread hskipped =>
      exact .read hcs (hreads.interior hclose hr) (by rw [hr cs hmark, hread]) (interior?_of_series? hclose hskipped)
  | @fault pre tok rest e hcs hstops hfault =>
      refine .fault (e := e) hcs hstops ⟨hfault.head, ?_, fun rest' hrest' => ?_, ?_⟩
      · obtain ⟨more, a, hmore, hK⟩ := hfault.begins
        exact ⟨more, a, hmore.interior hclose hr, hK⟩
      · rw [hr _ (mark?_congr hfault.head close rest rest' (hcs ▸ hmark)), hfault.settled rest' hrest']
      · obtain ⟨more, hmore⟩ := hfault.viable
        refine ⟨more, fun rest' hrest' => ?_⟩
        obtain ⟨hstops', hskip⟩ := hmore rest' hrest'
        exact ⟨hstops', interior?_of_series? hclose hskip⟩
  | broken hread hskipped => exact .broken (by rw [hr cs hmark, hread]) (by rw [interior?, hmark, hskipped])

end

end TieredStyle.Style
