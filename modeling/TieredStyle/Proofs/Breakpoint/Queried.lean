import Mathlib.Data.List.Induction
import Mathlib.Data.List.TakeWhile
import Mathlib.Data.Nat.Digits.Defs
import TieredStyle.Breakpoint

/-!
# The tier of a media query

A media query stands for the narrowest tier that takes the width named first in it. It stands for the base tier if it
names none, if the digits of that width are not all of ASCII, or if no tier takes the width, however many digits it has.
-/
namespace TieredStyle.Breakpoint
open TieredStyle.Text

/-! ## The width at the front of a text -/

/-- The text starts with `max-width:` in any case, blanks, these digits and `px` in any case. -/
def SaysWidth (cs digits : List Char) : Prop :=
  ∃ word blanks unit rest, cs = word ++ (blanks ++ (digits ++ (unit ++ rest))) ∧
    word.map Char.toLower = "max-width:".toList ∧ (∀ c ∈ blanks, isWhiteSpace c = true) ∧
      digits ≠ [] ∧ (∀ c ∈ digits, isDecimalDigit c = true) ∧ unit.map Char.toLower = ['p', 'x']

/-- The code points of white space. -/
def whiteSpaceCodes : List Nat :=
  [0x9, 0xA, 0xB, 0xC, 0xD, 0x20, 0x85, 0xA0, 0x1680, 0x2000, 0x2001, 0x2002, 0x2003, 0x2004, 0x2005, 0x2006, 0x2007,
    0x2008, 0x2009, 0x200A, 0x2028, 0x2029, 0x202F, 0x205F, 0x3000]

theorem not_isDecimalDigit_of_isWhiteSpace {c : Char} (h : isWhiteSpace c = true) : isDecimalDigit c = false := by
  have hcode : c.toNat ∈ whiteSpaceCodes := by
    simp only [isWhiteSpace, Bool.or_eq_true, Bool.and_eq_true, decide_eq_true_eq] at h
    simp only [whiteSpaceCodes, List.mem_cons, List.not_mem_nil, or_false]
    omega
  have hnone : ∀ n ∈ whiteSpaceCodes, (digitZeros.any fun z => z ≤ n && n < z + 10) = false := by decide
  exact hnone _ hcode

theorem not_isDecimalDigit_of_toLower {c : Char} (h : c.toLower = 'p') : isDecimalDigit c = false := by
  unfold Char.toLower at h
  split at h
  next hupper =>
    have hcode : c.toNat ∈ List.range' 65 26 := by
      have hlower : 65 ≤ c.toNat := UInt32.le_iff_toNat_le.1 hupper.1
      have hgreater : c.toNat ≤ 90 := UInt32.le_iff_toNat_le.1 hupper.2
      rw [List.mem_range'_1]
      omega
    have hnone : ∀ n ∈ List.range' 65 26, (digitZeros.any fun z => z ≤ n && n < z + 10) = false := by decide
    exact hnone _ hcode
  next =>
    rw [h]
    decide

theorem dropWord?_eq_some_iff {word cs rest : List Char} :
    dropWord? word cs = some rest ↔ ∃ w, cs = w ++ rest ∧ w.map Char.toLower = word := by
  unfold dropWord?
  constructor
  · intro h
    split at h
    next hword =>
      cases h
      exact ⟨_, (List.take_append_drop _ cs).symm, hword⟩
    next => cases h
  · rintro ⟨w, rfl, rfl⟩
    rw [List.length_map, List.take_left, List.drop_left, if_pos rfl]

theorem widthDigits?_eq_some_iff {cs digits : List Char} : widthDigits? cs = some digits ↔ SaysWidth cs digits := by
  unfold widthDigits?
  simp only [Option.bind_eq_bind, Option.bind_eq_some_iff, dropWord?_eq_some_iff]
  constructor
  · rintro ⟨rest, ⟨word, rfl, hword⟩, h⟩
    split at h
    next => cases h
    next hne =>
      obtain ⟨rest', hunit, h⟩ := Option.bind_eq_some_iff.1 h
      cases h
      obtain ⟨unit, hunit, hcase⟩ := dropWord?_eq_some_iff.1 hunit
      refine ⟨word, rest.takeWhile isWhiteSpace, unit, rest', ?_, hword, ?_, ?_, ?_, hcase⟩
      · rw [← hunit, List.takeWhile_append_dropWhile, List.takeWhile_append_dropWhile]
      · exact fun c hc => List.mem_takeWhile_imp hc
      · simpa using hne
      · exact fun c hc => List.mem_takeWhile_imp hc
  · rintro ⟨word, blanks, unit, rest, rfl, hword, hblanks, hne, hdigits, hunit⟩
    have hblank : (blanks ++ (digits ++ (unit ++ rest))).dropWhile isWhiteSpace = digits ++ (unit ++ rest) := by
      obtain ⟨d, ds, rfl⟩ := List.exists_cons_of_ne_nil hne
      have hd : ¬isWhiteSpace d = true := fun hd => by
        have := hdigits d List.mem_cons_self
        rw [not_isDecimalDigit_of_isWhiteSpace hd] at this
        cases this
      rw [List.dropWhile_append_of_pos hblanks, List.cons_append, List.dropWhile_cons_of_neg hd]
    obtain ⟨p, x, rfl⟩ : ∃ p x, unit = p :: x := List.exists_cons_of_ne_nil (by rintro rfl; cases hunit)
    have hp : ¬isDecimalDigit p = true := by
      rw [not_isDecimalDigit_of_toLower (List.cons.inj hunit).1]
      decide
    have htake : (digits ++ (p :: x ++ rest)).takeWhile isDecimalDigit = digits := by
      rw [List.takeWhile_append_of_pos hdigits, List.cons_append, List.takeWhile_cons_of_neg hp, List.append_nil]
    have hdrop : (digits ++ (p :: x ++ rest)).dropWhile isDecimalDigit = p :: x ++ rest := by
      rw [List.dropWhile_append_of_pos hdigits, List.cons_append, List.dropWhile_cons_of_neg hp]
    refine ⟨_, ⟨word, rfl, hword⟩, ?_⟩
    rw [hblank, htake, hdrop, if_neg (by simpa using hne), dropWord?_eq_some_iff.2 ⟨_, rfl, hunit⟩]
    rfl

/-! ## The first width in a text -/

/-- The leftmost place where the text names a width. -/
def FirstWidth (cs digits : List Char) : Prop :=
  ∃ i, SaysWidth (cs.drop i) digits ∧ ∀ j < i, ∀ ds, ¬SaysWidth (cs.drop j) ds

theorem SaysWidth.unique {cs ds ds' : List Char} (h : SaysWidth cs ds) (h' : SaysWidth cs ds') : ds = ds' := by
  rw [← widthDigits?_eq_some_iff] at h h'
  exact Option.some.inj (h.symm.trans h')

theorem not_saysWidth_nil (ds : List Char) : ¬SaysWidth [] ds := by
  rw [← widthDigits?_eq_some_iff]
  exact fun h => by cases h

theorem FirstWidth.unique {cs ds ds' : List Char} (h : FirstWidth cs ds) (h' : FirstWidth cs ds') : ds = ds' := by
  obtain ⟨i, hi, hleft⟩ := h
  obtain ⟨j, hj, hleft'⟩ := h'
  rcases Nat.lt_trichotomy i j with hlt | rfl | hlt
  · exact absurd hi (hleft' i hlt ds)
  · exact hi.unique hj
  · exact absurd hj (hleft j hlt ds')

/-- A text names no width, or there is a leftmost place where it does. -/
theorem firstWidth_or (cs : List Char) : (∃ ds, FirstWidth cs ds) ∨ ∀ i ds, ¬SaysWidth (cs.drop i) ds := by
  by_cases h : ∃ i ds, SaysWidth (cs.drop i) ds
  · classical
    obtain ⟨ds, hds⟩ := Nat.find_spec h
    exact .inl ⟨ds, Nat.find h, hds, fun j hj ds' hj' => Nat.find_min h hj ⟨ds', hj'⟩⟩
  · exact .inr fun i ds hds => h ⟨i, ds, hds⟩

/-- What is searched for from left to right is found at the leftmost place. -/
theorem width?_of_firstWidth {cs ds : List Char} (h : FirstWidth cs ds) : width? cs = asciiValue? ds := by
  obtain ⟨i, hi, hleft⟩ := h
  induction i generalizing cs with
  | zero =>
      cases cs with
      | nil => exact absurd hi (not_saysWidth_nil ds)
      | cons c cs =>
          rw [List.drop_zero] at hi
          rw [width?, widthDigits?_eq_some_iff.2 hi]
  | succ i ih =>
      cases cs with
      | nil => exact absurd hi (not_saysWidth_nil ds)
      | cons c cs =>
          have hnone : widthDigits? (c :: cs) = none :=
            Option.eq_none_iff_forall_ne_some.2 fun ds' hds' =>
              hleft 0 (Nat.succ_pos i) ds' (widthDigits?_eq_some_iff.1 hds')
          rw [width?, hnone]
          exact ih hi fun j hj => hleft (j + 1) (Nat.succ_lt_succ hj)

theorem width?_of_forall {cs : List Char} (h : ∀ i ds, ¬SaysWidth (cs.drop i) ds) : width? cs = none := by
  induction cs with
  | nil => rfl
  | cons c cs ih =>
      have hnone : widthDigits? (c :: cs) = none :=
        Option.eq_none_iff_forall_ne_some.2 fun ds hds => h 0 ds (widthDigits?_eq_some_iff.1 hds)
      rw [width?, hnone]
      exact ih fun i => h (i + 1)

/-! ## The number that it is -/

/-- The number that decimal digits stand for, the last of them for the ones. -/
def numberOf (digits : List Char) : Nat := Nat.ofDigits 10 (digits.reverse.map fun d => d.toNat - '0'.toNat)

theorem numberOf_concat (ds : List Char) (d : Char) :
    numberOf (ds ++ [d]) = 10 * numberOf ds + (d.toNat - '0'.toNat) := by
  rw [numberOf, List.reverse_append, List.reverse_singleton, List.singleton_append, List.map_cons, Nat.ofDigits_cons,
    numberOf, Nat.add_comm]

theorem asciiValue?_eq (digits : List Char) :
    asciiValue? digits = if digits.all Char.isDigit then some (numberOf digits) else none := by
  have hfold : digits.foldl (fun n d => 10 * n + (d.toNat - '0'.toNat)) 0 = numberOf digits := by
    induction digits using List.reverseRecOn with
    | nil => rfl
    | append_singleton ds d ih => rw [List.foldl_append, ih, numberOf_concat]; rfl
  rw [asciiValue?, hfold]

/-- What the first width in a text comes to, with none if there is no width or if its digits are not all of ASCII. -/
inductive NamesWidth (cs : List Char) : Option Nat → Prop
  | number {digits : List Char} : FirstWidth cs digits → (∀ d ∈ digits, d.isDigit = true) →
      NamesWidth cs (some (numberOf digits))
  | foreign {digits : List Char} {d : Char} : FirstWidth cs digits → d ∈ digits → d.isDigit = false →
      NamesWidth cs none
  | absent : (∀ i digits, ¬SaysWidth (cs.drop i) digits) → NamesWidth cs none

theorem namesWidth_iff {cs : List Char} {n? : Option Nat} : NamesWidth cs n? ↔ n? = width? cs := by
  constructor
  · rintro (⟨h, hascii⟩ | ⟨h, hd, hforeign⟩ | h)
    · rw [width?_of_firstWidth h, asciiValue?_eq, if_pos (List.all_eq_true.2 hascii)]
    · rw [width?_of_firstWidth h, asciiValue?_eq, if_neg fun hascii => by
        rw [List.all_eq_true.1 hascii _ hd] at hforeign
        cases hforeign]
    · rw [width?_of_forall h]
  · rintro rfl
    rcases firstWidth_or cs with ⟨ds, h⟩ | h
    · rw [width?_of_firstWidth h, asciiValue?_eq]
      split
      next hascii => exact .number h (List.all_eq_true.1 hascii)
      next hforeign =>
        simp only [List.all_eq_true, not_forall, Bool.not_eq_true] at hforeign
        obtain ⟨d, hd, hforeign⟩ := hforeign
        exact .foreign h hd hforeign
    · rw [width?_of_forall h]
      exact .absent h

/-! ## The tier that takes it -/

/-- The smallest bound of a tier that a width does not exceed. -/
def narrowest? (n : Nat) : Option Nat := ([576, 768, 992, 1200, 1400].filter (n ≤ ·)).min?

/-- What comes first in order is the smallest. -/
theorem find?_eq_min?_filter {p : Nat → Bool} {ws : List Nat} (h : ws.Pairwise (· ≤ ·)) :
    ws.find? p = (ws.filter p).min? := by
  induction ws with
  | nil => rfl
  | cons w ws ih =>
      obtain ⟨hw, hws⟩ := List.pairwise_cons.1 h
      cases hp : p w with
      | true =>
          rw [List.find?_cons_of_pos hp, List.filter_cons_of_pos hp]
          refine (List.min?_eq_some_iff.2 ⟨List.mem_cons_self, ?_⟩).symm
          rintro w' (_ | ⟨_, hw'⟩)
          · exact Nat.le_refl w
          · exact hw w' (List.mem_filter.1 hw').1
      | false => rw [List.find?_cons_of_neg (by simp [hp]), List.filter_cons_of_neg (by simp [hp]), ih hws]

theorem maxWidth?_ofWidth (n : Nat) : (ofWidth n).maxWidth? = narrowest? n := by
  rw [narrowest?, ← find?_eq_min?_filter (by decide), ofWidth, ascending]
  simp only [List.find?_cons, maxWidth?, Option.any_some, List.find?_nil]
  cases decide (n ≤ 576) <;> cases decide (n ≤ 768) <;> cases decide (n ≤ 992) <;> cases decide (n ≤ 1200) <;>
    cases decide (n ≤ 1400) <;> rfl

/-- No tier takes a number that is too large. -/
theorem narrowest?_eq_none {n : Nat} (h : 1400 < n) : narrowest? n = none := by
  rw [narrowest?, List.min?_eq_none_iff, List.filter_eq_nil_iff]
  intro w hw
  simp only [List.mem_cons, List.not_mem_nil, or_false] at hw
  simp only [decide_eq_true_eq]
  omega

/-- A media query stands for the narrowest tier that takes the number named first in it, and for the base tier if there
is none. A number without room in 64 bits may as well be none. -/
theorem ofMedia_narrowest (query : String) :
    ∃ n?, NamesWidth query.toList n? ∧ (∀ m?, NamesWidth query.toList m? → m? = n?) ∧
      (ofMedia query).maxWidth? = n?.bind narrowest? ∧
        (ofMedia query).maxWidth? = (n?.filter (· < 2 ^ 64)).bind narrowest? := by
  have htier : (ofMedia query).maxWidth? = (width? query.toList).bind narrowest? := by
    unfold ofMedia
    cases width? query.toList with
    | none => rfl
    | some n => exact maxWidth?_ofWidth n
  have hroom : ∀ n? : Option Nat, (n?.filter (· < 2 ^ 64)).bind narrowest? = n?.bind narrowest? := by
    intro n?
    cases n? with
    | none => rfl
    | some n =>
        by_cases hn : n < 2 ^ 64
        · rw [Option.filter_some_pos (by simpa using hn)]
        · rw [Option.filter_some_neg (by simpa using hn), Option.bind_some, narrowest?_eq_none (by omega)]
          rfl
  refine ⟨width? query.toList, namesWidth_iff.2 rfl, fun m? hm => namesWidth_iff.1 hm, htier, ?_⟩
  rw [hroom]
  exact htier

-- The first width decides, though its digits are not of ASCII.
example : ofMedia "(MAX-WIDTH:\u00a00700PX)" = .sm ∧ ofMedia "(max-width:\u0667px) and (max-width:700px)" = .base := by
  decide +kernel

end TieredStyle.Breakpoint
