import TieredStyle.Proofs.Json.Text
import TieredStyle.Style.Json.Read

/-!
# Reading back an object

An object is read member by member. What a member comes to hangs on what is read behind its key, and that
ends in front of a comma or of the closing brace.
-/
namespace TieredStyle.Style
open TieredStyle.Json

/-- Whether reading from the front of a text gives a value and leaves the rest. -/
def Takes {α : Type} (take : (cs : List Char) → Taken α cs) (cs : List Char) (a : α) (rest : List Char) :
    Prop :=
  ∃ h, take cs = .ok ⟨a, rest, h⟩

/-- Whether what is written is read as a value in front of all that can follow a member of an object. -/
def ReadsBack {α : Type} (take : (cs : List Char) → Taken α cs) (written : List Char) (a : α) : Prop :=
  ∀ c rest, c = ',' ∨ c = '\x7d' → Takes take (written ++ c :: rest) a (c :: rest)

section

variable {α β : Type} {take : (cs : List Char) → Taken α cs} {written cs rest : List Char} {a : α}

theorem ReadsBack.of_takes (h : ∀ rest, Takes take (written ++ rest) a rest) : ReadsBack take written a :=
  fun c rest _ => h (c :: rest)

theorem Takes.afterColon (h : Takes take cs a rest) : Takes (Style.afterColon take) (':' :: cs) a rest := by
  obtain ⟨hle, h⟩ := h
  refine ⟨Nat.le_succ_of_le hle, ?_⟩
  rw [Style.afterColon, takeMark_cons (by decide)]
  dsimp only [require, bind, Except.bind]
  rw [h]
  rfl

/-- What is read behind a colon, and put where it belongs. -/
theorem ReadsBack.member (h : ReadsBack take written a) {f : α → β} {step : (cs : List Char) → Taken β cs}
    (hstep : ∀ cs, step cs = do return (← Style.afterColon take cs).map f) :
    ReadsBack step (':' :: written) (f a) := by
  intro c rest hc
  obtain ⟨hle, h⟩ := (h c rest hc).afterColon
  rw [List.cons_append]
  refine ⟨hle, ?_⟩
  rw [hstep, h]
  rfl

end

section

variable {σ : Type} {step : σ → String → (cs : List Char) → Taken σ cs} {state state' state'' : σ}
  {key : String} {cs rest rest' : List Char}

/-! ## Members -/

/-- The last member is the one in front of the brace. -/
theorem Takes.last (h : Takes (step state key) cs state' ('\x7d' :: rest)) :
    Takes (takeMembers step state) ((text key).toList ++ cs) state' rest := by
  obtain ⟨_, hkey⟩ := takeText_flatMap key cs
  obtain ⟨hle, h⟩ := h
  rw [toList_text, List.cons_append, List.append_assoc, List.singleton_append]
  refine ⟨by simp at hle ⊢; omega, ?_⟩
  rw [takeMembers, takeMark_cons (by decide)]
  dsimp only [require, bind, Except.bind]
  rw [hkey]
  dsimp only
  rw [h]
  dsimp only
  rw [takeMark_cons (by decide)]
  rfl

theorem Takes.more (h : Takes (step state key) cs state' (',' :: rest))
    (hmore : Takes (takeMembers step state') rest state'' rest') :
    Takes (takeMembers step state) ((text key).toList ++ cs) state'' rest' := by
  obtain ⟨_, hkey⟩ := takeText_flatMap key cs
  obtain ⟨hle, h⟩ := h
  obtain ⟨hle', hmore⟩ := hmore
  rw [toList_text, List.cons_append, List.append_assoc, List.singleton_append]
  refine ⟨by simp at hle ⊢; omega, ?_⟩
  rw [takeMembers, takeMark_cons (by decide)]
  dsimp only [require, bind, Except.bind]
  rw [hkey]
  dsimp only
  rw [h]
  dsimp only
  rw [takeMark_cons_of_ne (by decide) (by decide), takeMark_cons (by decide)]
  dsimp only
  rw [hmore]
  rfl

/-- Whether the steps for the members of an object lead from one state to another. -/
inductive Gathers (step : σ → String → (cs : List Char) → Taken σ cs) : σ → List (String × String) → σ → Prop
  | nil (state : σ) : Gathers step state [] state
  | cons {state state' state'' : σ} {key value : String} {members : List (String × String)} :
      ReadsBack (step state key) (':' :: value.toList) state' → Gathers step state' members state'' →
      Gathers step state ((key, value) :: members) state''

/-- A key, a colon and a value. -/
def member (m : String × String) : List Char := (text m.1).toList ++ ':' :: m.2.toList

def series (members : List (String × String)) : List Char := [','].intercalate (members.map member)

theorem toList_object (members : List (String × String)) :
    (object members).toList = '\x7b' :: (series members ++ ['\x7d']) := by
  have hmember : (fun m : String × String => (text m.1).toList ++ ':' :: m.2.toList) = member := rfl
  simp [object, series, Function.comp_def, hmember]

theorem Gathers.takeMembers {m : String × String} {members : List (String × String)}
    (h : Gathers step state (m :: members) state') (rest : List Char) :
    Takes (takeMembers step state) (series (m :: members) ++ '\x7d' :: rest) state' rest := by
  induction members generalizing m state with
  | nil =>
      cases h with
      | cons hvalue hrest =>
          cases hrest
          simpa [series, member] using (hvalue '\x7d' rest (.inr rfl)).last
  | cons m' members ih =>
      cases h with
      | cons hvalue hrest =>
          have hmore := (hvalue ',' _ (.inl rfl)).more (ih hrest)
          simpa [series, member, List.intercalate_cons_cons] using hmore

theorem exists_series_eq (m : String × String) (members : List (String × String)) (rest : List Char) :
    ∃ more, series (m :: members) ++ rest = '"' :: more := by
  cases members <;> simp [series, member, toList_text, List.intercalate_cons_cons]

/-- An object after its opening brace. -/
theorem Gathers.takeObject {members : List (String × String)} (h : Gathers step state members state')
    (rest : List Char) :
    Takes (takeObject step state) (series members ++ '\x7d' :: rest) state' rest := by
  cases members with
  | nil =>
      cases h
      change Takes _ ('\x7d' :: rest) _ _
      refine ⟨Nat.le_succ _, ?_⟩
      rw [Style.takeObject, takeMark_cons (by decide)]
  | cons m members =>
      have hmembers := h.takeMembers rest
      obtain ⟨more, hmore⟩ := exists_series_eq m members ('\x7d' :: rest)
      rw [hmore] at hmembers ⊢
      obtain ⟨hle, hmembers⟩ := hmembers
      refine ⟨hle, ?_⟩
      rw [Style.takeObject, takeMark_cons_of_ne (by decide) (by decide)]
      exact hmembers

/-- An object with its braces, which is read as what its members come to. -/
theorem Gathers.takeMap {α : Type} {take : (cs : List Char) → Taken α cs}
    {members : List (String × String)} {m : OrderedMap α}
    (h : Gathers (fun (m : OrderedMap α) key cs => do
      return (← Style.afterColon take cs).map (m.insert key)) ∅ members m) (rest : List Char) :
    Takes (takeMap take) ((object members).toList ++ rest) m rest := by
  obtain ⟨hle, h⟩ := h.takeObject rest
  rw [toList_object, List.cons_append, List.append_assoc, List.singleton_append]
  refine ⟨Nat.le_succ_of_le hle, ?_⟩
  rw [Style.takeMap, takeMark_cons (by decide)]
  dsimp only
  rw [h]
  rfl

end

end TieredStyle.Style
