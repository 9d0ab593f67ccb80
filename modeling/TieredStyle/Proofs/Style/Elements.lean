import TieredStyle.Proofs.Style.Fields

/-!
# What comes of reading the array of a style

The elements are read one behind the other. A bracket that closes the array too early is a fault of the style, and a
comma behind the last element is taken for one of the text.
-/
namespace TieredStyle.Style
open Json

section

variable {α : Type} {r : Reader α} {take : (cs : List Char) → Taken α cs} {K : List Char → List Char → Prop}
  {used cs rest w : List Char} {a : α}

/-- An element behind a comma, and what follows it. -/
def behindComma (r : Reader α) : Reader α := fun cs =>
  match mark? ']' cs with
  | some _ => .error .incomplete
  | none => (require (mark? ',' cs)).bind r

/-- A style behind its last element. -/
def closeStyle (style : Style) : Reader Style := fun cs => (require (mark? ']' cs)).map fun rest => (style, rest)

/-- The elements of a style behind its first. -/
def elementsBehind (id : String) : Reader Style :=
  behindComma (andThen (plain takeString) fun name => behindComma (andThen (plain takeVersion) fun version =>
    behindComma (andThen (plain takeLayers) fun layers => closeStyle ⟨id, name, version, layers⟩)))

def elements : Reader Style := andThen (plain takeString) elementsBehind

/-- An element begins with no bracket that closes. -/
theorem plain_afterComma {β : Type} {take : (cs : List Char) → Taken α cs} (r : α → Reader β)
    (h : ∀ cs, (mark? ']' cs).isSome → plain take cs = .error .notJson) :
    andThen (plain (afterComma take)) r = behindComma (andThen (plain take) r) := by
  funext cs
  unfold andThen behindComma
  rw [plain, afterComma]
  unfold mark?
  cases takeMark ']' cs with
  | some p => rfl
  | none =>
      cases takeMark ',' cs with
      | none => rfl
      | some p =>
          obtain ⟨rest, hlt⟩ := p
          have hrest := h rest
          rw [mark?, Option.isSome_map] at hrest
          simp only [Option.map_none, Option.map_some, require, bind, Except.bind]
          by_cases hclose : (takeMark ']' rest).isSome
          · rw [if_pos hclose, hrest hclose]
            rfl
          · rw [if_neg hclose, plain]
            cases take rest <;> rfl

theorem mismatch_close (hw : Blanks w) (wanted : Wanted) (rest : List Char) :
    mismatch wanted (w ++ ']' :: rest) = .notJson := by
  have hfound : found? (w ++ ']' :: rest) = (numeral? (']' :: rest)).bind fun p => p.1.value?.map .number :=
    found?_cons hw (by decide) rest
  rw [mismatch, hfound, numeral?_eq_none (by decide), Option.bind_none]

theorem takeString_close (cs : List Char) (h : (mark? ']' cs).isSome) : plain takeString cs = .error .notJson := by
  obtain ⟨rest, hrest⟩ := Option.isSome_iff_exists.1 h
  obtain ⟨-, w, hw, rfl⟩ := exists_of_mark? hrest
  rw [plain_takeString, mark?_of_ne hw (by decide) (by decide), mismatch_close hw]

theorem takeVersion_close (cs : List Char) (h : (mark? ']' cs).isSome) :
    plain takeVersion cs = .error .notJson := by
  obtain ⟨rest, hrest⟩ := Option.isSome_iff_exists.1 h
  obtain ⟨-, w, hw, rfl⟩ := exists_of_mark? hrest
  rw [plain_takeVersion_cons hw (by decide), numeral?_eq_none (by decide), mismatch_close hw]

theorem takeLayers_close (cs : List Char) (h : (mark? ']' cs).isSome) : plain takeLayers cs = .error .notJson := by
  obtain ⟨rest, hrest⟩ := Option.isSome_iff_exists.1 h
  obtain ⟨-, w, hw, rfl⟩ := exists_of_mark? hrest
  exact (plain_takeMap _ _).trans (by rw [mark?_of_ne hw (by decide) (by decide), mismatch_close hw])

theorem plain_takeStyleArray (cs : List Char) : plain takeStyleArray cs = match mark? ']' cs with
    | some _ => .error .incomplete
    | none => elements cs := by
  unfold elements elementsBehind
  simp only [← plain_afterComma _ takeString_close, ← plain_afterComma _ takeVersion_close,
    ← plain_afterComma _ takeLayers_close]
  unfold andThen closeStyle
  rw [plain, takeStyleArray, mark?]
  cases takeMark ']' cs with
  | some p => rfl
  | none =>
      simp only [Option.map_none, Option.isSome_none, plain, bind, Except.bind, mark?]
      cases takeString cs with
      | error e => rfl
      | ok p₀ =>
          obtain ⟨id, rest₀, h₀⟩ := p₀
          simp only [Except.map, pair]
          cases afterComma takeString rest₀ with
          | error e => rfl
          | ok p₁ =>
              obtain ⟨name, rest₁, h₁⟩ := p₁
              dsimp only
              cases afterComma takeVersion rest₁ with
              | error e => rfl
              | ok p₂ =>
                  obtain ⟨version, rest₂, h₂⟩ := p₂
                  dsimp only
                  cases afterComma takeLayers rest₂ with
                  | error e => rfl
                  | ok p₃ =>
                      obtain ⟨layers, rest₃, h₃⟩ := p₃
                      dsimp only
                      cases takeMark ']' rest₃ <;> rfl

/-- At a piece that stands for no value, and at a comma in place of the bracket that closes a style, a text is said
to be no JSON. -/
def Withheld (tok more : List Char) : Prop := NoValue tok ∨ tok = [','] ∧ more = [']']

theorem isClose_bracket : IsClose ']' := .inl rfl

theorem goes_tail?_bracket (cs rest : List Char) (h : tail? ']' cs = some rest) : Goes EndsNumeral cs :=
  goes_of_tail? isClose_bracket.endsNumeral h

theorem behindComma_comma (hw : Blanks w) (rest : List Char) : behindComma r (w ++ ',' :: rest) = r rest := by
  rw [behindComma, mark?_of_ne hw (by decide) (by decide), mark?_self hw (by decide)]
  rfl

theorem Reads.comma (h : Reads r (series? ']') used a) (hw : Blanks w) :
    Reads (behindComma r) (tail? ']') (w ++ ',' :: used) a :=
  h.behind_mark (behindComma_comma hw) (tail?_comma isClose_bracket hw)

theorem Agrees.comma (h : Agrees r (series? ']') K) : Agrees (behindComma r) (tail? ']') K := by
  obtain ⟨used, a, hused⟩ := h.reads
  refine ⟨fun cs => ?_, _, a, hused.comma (List.forall_mem_nil _)⟩
  cases hclose : mark? ']' cs with
  | some rest =>
      obtain ⟨-, w, hw, rfl⟩ := exists_of_mark? hclose
      refine .mark (.error .incomplete) (by decide) (by decide) (fun rest => ?_)
        (tail?_self isClose_bracket hw) (fun e he => ?_) rest
      · rw [behindComma, mark?_self hw (by decide)]
        rfl
      · cases he
        exact ⟨nofun, _, _, hused.comma hw⟩
  | none =>
      cases hcomma : mark? ',' cs with
      | some rest =>
          obtain ⟨-, w, hw, rfl⟩ := exists_of_mark? hcomma
          exact (h.outcome rest).behind_mark (behindComma_comma hw) (tail?_comma isClose_bracket hw)
      | none =>
          refine .broken ?_ ?_
          · rw [behindComma, hclose, hcomma]
            rfl
          · rw [tail?, hclose, hcomma, Option.bind_none]

theorem closeStyle_bracket (hw : Blanks w) (style : Style) (rest : List Char) :
    closeStyle style (w ++ ']' :: rest) = .ok (style, rest) := by
  rw [closeStyle, mark?_self hw (by decide)]
  rfl

theorem reads_close (hw : Blanks w) (style : Style) : Reads (closeStyle style) (tail? ']') (w ++ [']']) style := by
  intro rest _
  rw [List.append_assoc, List.singleton_append]
  exact ⟨closeStyle_bracket hw style rest, tail?_self isClose_bracket hw rest⟩

/-- At a comma behind the last element the text is said to be no JSON, though a value and the bracket could follow. -/
theorem outcome_comma (hw : Blanks w) (style : Style) (rest : List Char) :
    Outcome (closeStyle style) (tail? ']') Withheld (w ++ ',' :: rest) := by
  have hbroken (rest : List Char) : closeStyle style (w ++ ',' :: rest) = .error .notJson := by
    rw [closeStyle, mark?_of_ne hw (by decide) (by decide)]
    rfl
  have hnull (rest : List Char) : skip? ('n' :: ("ull".toList ++ ']' :: rest)) = some (']' :: rest) :=
    (reads_passed (']' :: rest) (goes_cons.2 isClose_bracket.endsNumeral)).2
  have hcs : w ++ ',' :: rest = w ++ ([','] ++ rest) := rfl
  refine .fault hcs (stops_of_ne (by decide) _ _)
    ⟨⟨_, _, rfl, by decide⟩, ⟨[']'], style, reads_close hw style, fun _ => .inr ⟨rfl, rfl⟩⟩,
      fun rest _ => hbroken rest, 'n' :: ("ull".toList ++ [']']), fun rest _ => ⟨stops_of_ne (by decide) _ _, ?_⟩⟩
  rw [List.singleton_append, tail?_comma isClose_bracket hw, series?_bracket, andThen?, List.cons_append,
    List.append_assoc, List.singleton_append, hnull, Option.bind_some]
  exact tail?_self isClose_bracket (List.forall_mem_nil _) rest

theorem agrees_close (style : Style) : Agrees (closeStyle style) (tail? ']') Withheld := by
  refine ⟨fun cs => ?_, _, style, reads_close (List.forall_mem_nil _) style⟩
  cases hclose : mark? ']' cs with
  | some rest =>
      obtain ⟨-, w, hw, rfl⟩ := exists_of_mark? hclose
      exact .mark (.ok style) (by decide) (by decide) (closeStyle_bracket hw style)
        (tail?_self isClose_bracket hw) (fun e he => nomatch he) rest
  | none =>
      cases hcomma : mark? ',' cs with
      | some rest =>
          obtain ⟨-, w, hw, rfl⟩ := exists_of_mark? hcomma
          exact outcome_comma hw style rest
      | none =>
          refine .broken ?_ ?_
          · rw [closeStyle, hclose]
            rfl
          · rw [tail?, hclose, hcomma, Option.bind_none]

/-- An element and what follows it. -/
theorem Agrees.element {β : Type} {r₂ : α → Reader β} (h : Agrees r skip? Valueless)
    (h₂ : ∀ a, Agrees (r₂ a) (tail? ']') Withheld) : Agrees (Style.andThen r r₂) (series? ']') Withheld := by
  rw [series?_bracket]
  exact h.andThen (fun _ _ _ h => .inl h) h₂ goes_tail?_bracket

theorem agrees_elementsBehind (id : String) : Agrees (elementsBehind id) (tail? ']') Withheld :=
  .comma (agrees_string.element fun _ => .comma (agrees_version.element fun _ =>
    .comma (agrees_layers.element fun _ => agrees_close _)))

theorem reads_elements (hw : Blanks w) : ∃ more style, Reads elements (series? ']') (w ++ more) style := by
  obtain ⟨used, style, hused⟩ := (agrees_elementsBehind "").reads
  refine ⟨(text "").toList ++ used, style, ?_⟩
  rw [← List.append_assoc, series?_bracket]
  exact (reads_string hw).andThen hused goes_tail?_bracket

/-- An array behind its opening bracket. -/
theorem agrees_array : Agrees (plain takeStyleArray) (interior? ']') Withheld := by
  have helements (cs : List Char) (hmark : mark? ']' cs = none) : plain takeStyleArray cs = elements cs := by
    rw [plain_takeStyleArray, hmark]
  have hreads {w : List Char} (hw : Blanks w) :
      ∃ more style, Reads (plain takeStyleArray) (interior? ']') (w ++ more) style := by
    obtain ⟨more, style, hmore⟩ := reads_elements hw
    exact ⟨more, style, hmore.interior isClose_bracket helements⟩
  refine ⟨fun cs => ?_, hreads (List.forall_mem_nil _)⟩
  cases hmark : mark? ']' cs with
  | none => exact ((agrees_string.element agrees_elementsBehind).outcome cs).interior isClose_bracket hmark helements
  | some rest =>
      obtain ⟨-, w, hw, rfl⟩ := exists_of_mark? hmark
      refine .mark (.error .incomplete) (by decide) (by decide) (fun rest => ?_)
        (interior?_self isClose_bracket hw) (fun e he => ?_) rest
      · rw [plain_takeStyleArray, mark?_self hw (by decide)]
        rfl
      · cases he
        exact ⟨nofun, hreads hw⟩

end

end TieredStyle.Style
