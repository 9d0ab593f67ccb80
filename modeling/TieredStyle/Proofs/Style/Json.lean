import TieredStyle.OrderedMap.Lemmas
import TieredStyle.Proofs.Json.Members
import TieredStyle.Proofs.Json.Numeral
import TieredStyle.Style.Json.Write

/-!
# Styles as JSON

A style that is written as JSON is read back as it was: with the same texts, the same version, and the
entries of each map in the same order.
-/
namespace TieredStyle
open Json

namespace Style

/-! ## Texts and versions -/

theorem takes_string (s : String) (rest : List Char) :
    Takes takeString ((text s).toList ++ rest) s rest := by
  obtain ⟨hle, h⟩ := takeText_flatMap s rest
  rw [toList_text, List.cons_append, List.append_assoc, List.singleton_append]
  refine ⟨Nat.le_succ_of_le hle, ?_⟩
  rw [takeString, takeMark_cons (by decide)]
  dsimp only
  rw [h]
  rfl

theorem endsNumeral {c : Char} (h : c = ',' ∨ c = '\x7d') : EndsNumeral c := by
  obtain rfl | rfl := h <;> exact ⟨by decide, by decide, by decide⟩

theorem skipBlanks_toDigits (n : Nat) (rest : List Char) :
    skipBlanks (Nat.toDigits 10 n ++ rest) = Nat.toDigits 10 n ++ rest := by
  cases hds : Nat.toDigits 10 n with
  | nil => exact absurd hds Nat.toDigits_ne_nil
  | cons d ds =>
      have hd : d.isDigit = true :=
        Nat.isDigit_of_mem_toDigits (by decide) (by decide) (hds ▸ List.mem_cons_self)
      apply skipBlanks_cons
      by_contra hblank
      simp only [isBlank, Bool.not_eq_false, Bool.or_eq_true, decide_eq_true_eq] at hblank
      obtain ((rfl | rfl) | rfl) | rfl := hblank <;> exact absurd hd (by decide)

theorem readsBack_version (v : UInt64) : ReadsBack takeVersion (toString v.toNat).toList v := by
  intro c rest hc
  have hlist : (toString v.toNat).toList = Nat.toDigits 10 v.toNat := by
    simp
  have hnumeral : ∃ hle, takeNumeral (skipBlanks (Nat.toDigits 10 v.toNat ++ c :: rest)) =
      some ⟨⟨false, Nat.toDigits 10 v.toNat, [], none⟩, c :: rest, hle⟩ := by
    rw [skipBlanks_toDigits]
    exact takeNumeral_toDigits (endsNumeral hc) v.toNat rest
  obtain ⟨hle, hnumeral⟩ := hnumeral
  rw [hlist]
  refine ⟨by simp, ?_⟩
  rw [takeVersion, hnumeral]
  dsimp only
  rw [value?_toDigits v.toNat_lt]
  dsimp only [require, bind, Except.bind]
  rw [UInt64.ofNat_toNat]
  rfl

/-! ## Maps -/

section

variable {α : Type} {take : (cs : List Char) → Taken α cs} {value : α → String}

/-- Reading what is written for a map inserts its entries one by one. -/
theorem gathers_entries (h : ∀ a rest, Takes take ((value a).toList ++ rest) a rest) (m : OrderedMap α)
    (es : List (String × α)) :
    Gathers (fun (m : OrderedMap α) key cs => do return (← afterColon take cs).map (m.insert key)) m
      (es.map fun (k, v) => (k, value v)) (m.insertMany es) := by
  induction es generalizing m with
  | nil => exact .nil m
  | cons e es ih =>
      have hvalue : ReadsBack take (value e.2).toList e.2 := .of_takes (h e.2)
      exact .cons (hvalue.member fun _ => rfl) (ih (m.insert e.1 e.2))

theorem takes_map (h : ∀ a rest, Takes take ((value a).toList ++ rest) a rest) (m : OrderedMap α)
    (rest : List Char) : Takes (takeMap take) ((m.json value).toList ++ rest) m rest := by
  have hentries := gathers_entries h ∅ m.entries
  rw [OrderedMap.insertMany_empty] at hentries
  exact hentries.takeMap rest

end

theorem takes_layers (l : Layers) (rest : List Char) : Takes takeLayers (l.json.toList ++ rest) l rest :=
  takes_map (takes_map (takes_map takes_string)) l rest

/-! ## Styles -/

theorem gathers_fields (s : Style) :
    Gathers takeField {} [("id", text s.id), ("name", text s.name), ("state", toString s.version.toNat),
      ("contents", s.layers.json)] ⟨some s.id, some s.name, some s.version, some s.layers⟩ := by
  have hid : ReadsBack takeString (text s.id).toList s.id := .of_takes (takes_string s.id)
  have hname : ReadsBack takeString (text s.name).toList s.name := .of_takes (takes_string s.name)
  have hlayers : ReadsBack takeLayers s.layers.json.toList s.layers := .of_takes (takes_layers s.layers)
  apply Gathers.cons (hid.member (f := fun id => { id := some id }) fun _ => rfl)
  apply Gathers.cons (hname.member (f := fun name => { id := some s.id, name := some name }) fun _ => rfl)
  apply Gathers.cons ((readsBack_version s.version).member
    (f := fun v => { id := some s.id, name := some s.name, version := some v }) fun _ => rfl)
  apply Gathers.cons (hlayers.member (f := fun layers =>
    { id := some s.id, name := some s.name, version := some s.version, layers := some layers }) fun _ => rfl)
  exact .nil _

theorem takes_style (s : Style) (rest : List Char) : Takes takeStyle (s.json.toList ++ rest) s rest := by
  obtain ⟨hle, hfields⟩ := (gathers_fields s).takeObject rest
  rw [json, toList_object, List.cons_append, List.append_assoc, List.singleton_append]
  refine ⟨Nat.le_succ_of_le hle, ?_⟩
  rw [takeStyle, takeMark_cons (by decide)]
  dsimp only
  rw [takeStyleObject, hfields]
  rfl

/-- Every style is read from what is written for it, in the order of its tiers, states and properties. -/
theorem ofJson_json (s : Style) : ofJson s.json = .ok s := by
  have h := s.takes_style []
  rw [List.append_nil] at h
  obtain ⟨hle, h⟩ := h
  rw [ofJson, h]
  rfl

end Style

end TieredStyle
