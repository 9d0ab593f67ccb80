import TieredStyle.Proofs.Style.Objects

/-!
# What comes of reading the object of a style

A field stands behind its key and a colon, and a key of a field that has been read already is refused. Whatever has
been read, the layers can still come.
-/
namespace TieredStyle.Style
open Json

section

variable {α : Type} {r : Reader α} {take : (cs : List Char) → Taken α cs} {K : List Char → List Char → Prop}
  {used cs rest w : List Char} {a : α}

/-! ## Behind a colon -/

def behindColon (r : Reader α) : Reader α := fun cs => (require (mark? ':' cs)).bind r

theorem plain_afterColon (take : (cs : List Char) → Taken α cs) :
    plain (afterColon take) = behindColon (plain take) := by
  funext cs
  rw [plain, afterColon, behindColon, mark?]
  cases takeMark ':' cs with
  | none => rfl
  | some p =>
      obtain ⟨rest, h⟩ := p
      simp only [require, bind, Except.bind, Option.map_some, plain]
      cases take rest <;> rfl

/-- What is read behind a colon, and put where it belongs. -/
theorem map_afterColon {β : Type} (take : (cs : List Char) → Taken α cs) (f : α → β) (cs : List Char) :
    (do return (← afterColon take cs).map f : Taken β cs).map pair = mapped f (behindColon (plain take)) cs := by
  rw [mapped, ← plain_afterColon, plain]
  cases afterColon take cs <;> rfl

theorem behindColon_colon (hw : Blanks w) (rest : List Char) : behindColon r (w ++ ':' :: rest) = r rest := by
  rw [behindColon, mark?_self hw (by decide)]
  rfl

theorem field?_colon (hw : Blanks w) (rest : List Char) : field? (w ++ ':' :: rest) = skip? rest := by
  rw [field?, andThen?, mark?_self hw (by decide), Option.bind_some]

theorem Reads.field (h : Reads r skip? used a) : Reads (behindColon r) field? (':' :: used) a :=
  h.behind_mark (behindColon_colon (List.forall_mem_nil _)) (field?_colon (List.forall_mem_nil _))

theorem Agrees.field (h : Agrees r skip? K) : Agrees (behindColon r) field? K where
  reads := by
    obtain ⟨used, a, hused⟩ := h.reads
    exact ⟨_, a, hused.field⟩
  outcome cs := by
    cases hcolon : mark? ':' cs with
    | none =>
        refine .broken ?_ ?_
        · rw [behindColon, hcolon]
          rfl
        · rw [field?, andThen?, hcolon, Option.bind_none]
    | some rest =>
        obtain ⟨-, w, hw, rfl⟩ := exists_of_mark? hcolon
        exact (h.outcome rest).behind_mark (behindColon_colon hw) (field?_colon hw)

/-! ## Maps -/

theorem finished_ok (r : Reader α) : finished .ok r = r := by
  funext cs
  rw [finished]
  cases r cs <;> rfl

/-- An entry of a map. -/
def takeEntry (take : (cs : List Char) → Taken α cs) (m : OrderedMap α) (key : String) (cs : List Char) :
    Taken (OrderedMap α) cs := do
  return (← afterColon take cs).map (m.insert key)

theorem members_map (h : Agrees (plain take) skip? Valueless) :
    Members (takeEntry take) (fun _ _ => .ok ()) (fun m key => mapped (m.insert key) (behindColon (plain take)))
      (.ok : OrderedMap α → Except ReadError (OrderedMap α)) where
  step_eq m key cs := map_afterColon take (m.insert key) cs
  check_empty _ := rfl
  check_ne h := nomatch h
  agrees _ _ := h.field.map _
  finish_ne h := nomatch h
  completes m := by
    obtain ⟨used, a, hused⟩ := h.reads
    exact ⟨"", _, _, _, rfl, hused.field.map _, rfl⟩

theorem plain_takeMap (take : (cs : List Char) → Taken α cs) (cs : List Char) :
    plain (takeMap take) cs = match mark? '\x7b' cs with
      | some rest => plain (takeObject (takeEntry take) ∅) rest
      | none => .error (mismatch .map cs) := by
  rw [plain, takeMap, mark?]
  cases takeMark '\x7b' cs with
  | none => rfl
  | some p =>
      obtain ⟨rest, h⟩ := p
      simp only [Option.map_some, plain]
      change Except.map pair (do return (← takeObject (takeEntry take) ∅ rest).widen _) = _
      cases takeObject (takeEntry take) ∅ rest <;> rfl

theorem plain_takeMap_brace (hw : Blanks w) (rest : List Char) :
    plain (takeMap take) (w ++ '\x7b' :: rest) = plain (takeObject (takeEntry take) ∅) rest := by
  rw [plain_takeMap, mark?_self hw (by decide)]

theorem reads_map (hw : Blanks w) : Reads (plain (takeMap take)) skip? (w ++ ['\x7b', '\x7d']) ∅ := by
  intro rest _
  have hnil : Blanks [] := List.forall_mem_nil _
  have hobject : plain (takeObject (takeEntry take) ∅) ('\x7d' :: rest) = .ok (∅, rest) := by
    have hmark : mark? '\x7d' ('\x7d' :: rest) = some rest := mark?_self hnil (by decide) rest
    rw [plain_takeObject, hmark]
  rw [List.append_assoc, List.cons_append, List.singleton_append, plain_takeMap_brace hw, hobject,
    skip?_brace hw]
  exact ⟨rfl, interior?_self isClose_brace hnil rest⟩

theorem agrees_map (h : Agrees (plain take) skip? Valueless) : Agrees (plain (takeMap take)) skip? Valueless := by
  refine .ofPiece .map (· = '\x7b') (fun w hw => ?_) (fun w c cs hw hc hne => ?_)
    (fun w c cs hw _ hc => ?_) (fun w hw => ⟨_, _, reads_map hw⟩) fun _ _ h => h
  · rw [plain_takeMap, mark?_blanks hw]
  · rw [plain_takeMap, mark?_of_ne hw hc hne]
  · subst hc
    have hobject := ((members_map h).agrees_object ∅).outcome cs
    rw [finished_ok] at hobject
    exact hobject.behind_mark (plain_takeMap_brace hw) (skip?_brace hw)

theorem agrees_layers : Agrees (plain takeLayers) skip? Valueless :=
  agrees_map (agrees_map (agrees_map agrees_string))

/-! ## The fields of a style -/

/-- What is passed over. -/
def passed : Reader Unit := fun cs => (require (skip? cs)).map fun rest => ((), rest)

theorem reads_passed : Reads passed skip? ('n' :: "ull".toList) () := by
  intro rest _
  have hskip : skip? ('n' :: ("ull".toList ++ rest)) = some rest :=
    (skip?_null (List.forall_mem_nil _) _).trans (word?_append _ rest)
  rw [List.cons_append, passed, hskip]
  exact ⟨rfl, rfl⟩

theorem agrees_passed : Agrees passed skip? K where
  reads := ⟨_, _, reads_passed⟩
  outcome cs := by
    cases h : skip? cs with
    | none => exact .broken (by rw [passed, h]; rfl) h
    | some rest =>
        obtain ⟨used, rfl, hused⟩ := cutsAt_skip? cs rest h
        refine .read (a := ()) rfl (fun rest' hrest' => ?_) (by rw [passed, h]; rfl) h
        rw [passed, hused rest' hrest']
        exact ⟨rfl, rfl⟩

/-- Whether a field has been read. -/
def Fields.has (fields : Fields) : Field → Bool
  | .id => fields.id.isSome
  | .name => fields.name.isSome
  | .version => fields.version.isSome
  | .layers => fields.layers.isSome

/-- Whether a key will do: a field comes once. -/
def checkField (fields : Fields) (key : String) : Except ReadError Unit :=
  match Field.ofKey? key with
  | none => .ok ()
  | some field => if fields.has field then .error (.repeated field) else .ok ()

/-- What stands behind a key. -/
def readField (fields : Fields) (key : String) : Reader Fields :=
  match Field.ofKey? key with
  | none => mapped (fun _ => fields) (behindColon passed)
  | some .id => mapped (fun id => { fields with id := some id }) (behindColon (plain takeString))
  | some .name => mapped (fun name => { fields with name := some name }) (behindColon (plain takeString))
  | some .version => mapped (fun v => { fields with version := some v }) (behindColon (plain takeVersion))
  | some .layers => mapped (fun layers => { fields with layers := some layers }) (behindColon (plain takeLayers))

/-- The style of the fields of an object. -/
def ofFields (fields : Fields) : Except ReadError Style :=
  match fields.layers with
  | none => .error .missingLayers
  | some layers => .ok ⟨fields.id.getD "", fields.name.getD "", fields.version.getD 0, layers⟩

theorem plain_takeField (fields : Fields) (key : String) (cs : List Char) :
    plain (takeField fields key) cs = (checkField fields key).bind fun _ => readField fields key cs := by
  rw [plain, takeField, checkField, readField]
  cases Field.ofKey? key with
  | none =>
      have hpassed (take : (cs : List Char) → Taken Unit cs) (htake : ∀ cs, (take cs).map pair = passed cs) :
          plain take = passed := funext htake
      refine (map_afterColon _ (fun _ => fields) cs).trans ?_
      rw [hpassed _ fun cs => ?_]
      · rfl
      · rw [passed, skip?]
        cases skipValue cs <;> rfl
  | some field =>
      cases field with
      | id =>
          by_cases hid : fields.id.isSome
          · simp only [hid, ↓reduceIte, Fields.has]
            rfl
          · simp only [hid, Fields.has]
            exact map_afterColon takeString (fun id => { fields with id := some id }) cs
      | name =>
          by_cases hname : fields.name.isSome
          · simp only [hname, ↓reduceIte, Fields.has]
            rfl
          · simp only [hname, Fields.has]
            exact map_afterColon takeString (fun name => { fields with name := some name }) cs
      | version =>
          by_cases hversion : fields.version.isSome
          · simp only [hversion, ↓reduceIte, Fields.has]
            rfl
          · simp only [hversion, Fields.has]
            exact map_afterColon takeVersion (fun v => { fields with version := some v }) cs
      | layers =>
          by_cases hlayers : fields.layers.isSome
          · simp only [hlayers, ↓reduceIte, Fields.has]
            rfl
          · simp only [hlayers, Fields.has]
            exact map_afterColon takeLayers (fun layers => { fields with layers := some layers }) cs

theorem reads_layers : Reads (plain takeLayers) skip? ['\x7b', '\x7d'] ∅ := reads_map (List.forall_mem_nil _)

theorem ofKey?_empty : Field.ofKey? "" = none := by decide +kernel

theorem ofKey?_layers : Field.ofKey? Field.layers.key = some .layers := by decide +kernel

theorem members_fields : Members takeField checkField readField ofFields where
  step_eq := plain_takeField
  check_empty fields := by rw [checkField, ofKey?_empty]
  check_ne {fields key e} h := by
    unfold checkField at h
    split at h
    next => cases h
    next =>
      split at h
      next =>
        cases h
        exact nofun
      next => cases h
  agrees fields key := by
    unfold readField
    cases Field.ofKey? key with
    | none => exact agrees_passed.field.map _
    | some field =>
        cases field with
        | version => exact agrees_version.field.map _
        | layers => exact agrees_layers.field.map _
        | _ => exact agrees_string.field.map _
  finish_ne {fields e} h := by
    unfold ofFields at h
    split at h
    next =>
      cases h
      exact nofun
    next => cases h
  completes fields := by
    cases hlayers : fields.layers with
    | none =>
        have hcheck : checkField fields Field.layers.key = .ok () := by
          rw [checkField, ofKey?_layers]
          simp only [Fields.has, hlayers]
          rfl
        have hread : Reads (readField fields Field.layers.key) field? [':', '\x7b', '\x7d']
            { fields with layers := some ∅ } := by
          rw [readField, ofKey?_layers]
          exact reads_layers.field.map _
        exact ⟨_, _, _, _, hcheck, hread, rfl⟩
    | some layers =>
        have hcheck : checkField fields "" = .ok () := by rw [checkField, ofKey?_empty]
        have hread : Reads (readField fields "") field? (':' :: 'n' :: "ull".toList) fields := by
          rw [readField, ofKey?_empty]
          exact reads_passed.field.map _
        exact ⟨_, _, _, _, hcheck, hread, by rw [ofFields, hlayers]⟩

theorem plain_takeStyleObject : plain takeStyleObject = finished ofFields (plain (takeObject takeField {})) := by
  funext cs
  rw [plain, takeStyleObject, finished, plain]
  cases takeObject takeField {} cs with
  | error e => rfl
  | ok p =>
      obtain ⟨fields, rest, h⟩ := p
      simp only [bind, Except.bind, Except.map, ofFields, pair]
      cases fields.layers <;> rfl

theorem agrees_object : Agrees (plain takeStyleObject) (interior? '\x7d') Valueless := by
  rw [plain_takeStyleObject]
  exact members_fields.agrees_object {}

end

end TieredStyle.Style
