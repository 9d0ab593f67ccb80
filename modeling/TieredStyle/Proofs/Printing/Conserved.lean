import TieredStyle.Proofs.Grammar.Rest
import TieredStyle.Proofs.Lexing.Scanned
import TieredStyle.Proofs.Printing.Printed

/-!
# Reading keeps the ink

The ink of the tokens that are read is the ink of the entries, and so is the ink of a print of the entries.
Hence the print of entries that are read from it has no comment.
-/
namespace TieredStyle.Css
open TieredStyle.Text

/-! ## The ink of entries -/

def Value.ink (v : Value) : Nat := Css.ink v.text.toList + if v.important then 10 else 0

def Declaration.ink (d : Declaration) : Nat := Css.ink d.property.toList + 1 + d.value.ink

def headInk (name params : String) : Nat := 1 + Css.ink name.toList + Css.ink params.toList

def declarationsInk (ds : List Declaration) : Nat := (ds.map Declaration.ink).sum

mutual
def Item.ink : Item → Nat
  | .rule selector body => Css.ink selector.toList + (declarationsInk body + 2)
  | .statement name params => headInk name params
  | .descriptors name params body => headInk name params + (declarationsInk body + 2)
  | .group name params body => headInk name params + (itemsInk body + 2)

def itemsInk : List Item → Nat
  | [] => 0
  | item :: items => item.ink + itemsInk items
end

/-! ## The ink of a print -/

variable {f : Format}

theorem ink_blank_append {w cs : List Char} (h : ∀ c ∈ w, isBlank c = true) :
    ink (w ++ cs) = ink cs := by
  rw [ink_append, ink_eq_zero_of_blank h, Nat.zero_add]

namespace Format

theorem ink_terminator (f : Format) (isLast : Bool) : ink (f.terminator isLast) = 0 := by
  cases f <;> cases isLast <;> rfl

theorem ink_block (f : Format) (depth : Nat) {isEmpty : Bool} {contents : List Char}
    (h : isEmpty = true → contents = []) : ink (f.block depth isEmpty contents) = ink contents + 2 := by
  have hbrace : ∀ c : Char, ∀ cs, (isBlank c || c == ';') = false → ink (c :: cs) = ink cs + 1 := by
    intro c cs hc
    rw [ink_cons, hc]
    rfl
  rw [block, ink_blank_append f.blank_space, hbrace _ _ (by decide), ink_append,
    hbrace _ _ (by decide), ink_eq_zero_of_blank f.blank_newline]
  cases isEmpty with
  | true =>
      rw [h rfl]
      rfl
  | false =>
      simp only [Bool.false_eq_true, ↓reduceIte, ink_append, ink_eq_zero_of_blank f.blank_newline,
        ink_eq_zero_of_blank (f.blank_margin depth)]
      omega

end Format

theorem Value.ink_mark (v : Value) : Css.ink (v.mark f) = if v.important then 10 else 0 := by
  rw [mark]
  split
  · rw [ink_blank_append f.blank_space]
    rfl
  · rfl

theorem Declaration.ink_printed (d : Declaration) : Css.ink (d.printed f) = d.ink := by
  rw [printed, ink_append, ink_cons, ink_blank_append f.blank_space, ink_append, d.value.ink_mark,
    ink, Value.ink]
  simp only [isBlank]
  simp
  omega

theorem ink_printedDeclarations (depth : Nat) (ds : List Declaration) :
    ink (printedDeclarations f depth ds) = declarationsInk ds := by
  induction ds with
  | nil => rfl
  | cons d ds ih =>
      rw [printedDeclarations, ink_blank_append (f.blank_margin depth), ink_append, ink_append,
        f.ink_terminator, ih, d.ink_printed, declarationsInk, declarationsInk, List.map_cons,
        List.sum_cons]
      omega

theorem ink_printedAtHead (name params : String) :
    ink (printedAtHead name params) = headInk name params := by
  have hat : ∀ cs, ink ('@' :: cs) = ink cs + 1 := fun cs => by
    rw [ink_cons]
    rfl
  rw [printedAtHead, headInk]
  split
  next hp =>
    rw [List.append_nil, hat, hp]
    simp
    omega
  next =>
    rw [List.cons_append, hat, ink_append, ink_cons_blank (by decide)]
    omega

mutual
theorem Item.ink_printed (indent : Nat) (item : Item) :
    Css.ink (item.printed f indent) = item.ink := by
  match item with
  | .rule selector body =>
      rw [Item.printed, ink_blank_append (f.blank_margin indent), ink_append,
        f.ink_block indent printedDeclarations_of_isEmpty, ink_printedDeclarations, Item.ink]
  | .statement name params =>
      rw [Item.printed, ink_blank_append (f.blank_margin indent), ink_append, ink_printedAtHead,
        ink_cons, ink_eq_zero_of_blank f.blank_newline, Item.ink]
      rfl
  | .descriptors name params body =>
      rw [Item.printed, ink_blank_append (f.blank_margin indent), ink_append, ink_printedAtHead,
        f.ink_block indent printedDeclarations_of_isEmpty, ink_printedDeclarations, Item.ink]
  | .group name params body =>
      rw [Item.printed, ink_blank_append (f.blank_margin indent), ink_append, ink_printedAtHead,
        f.ink_block indent printedItems_of_isEmpty, ink_printedItems (indent + 1) body, Item.ink]

theorem ink_printedItems (indent : Nat) (items : List Item) :
    ink (printedItems f indent items) = itemsInk items := by
  match items with
  | [] =>
      rw [printedItems, itemsInk]
      rfl
  | item :: items =>
      rw [printedItems, ink_append, item.ink_printed, ink_printedItems indent items, itemsInk]
end

/-! ## The ink of tokens -/

theorem ink_of_lower {cs w : List Char} (h : cs.map Char.toLower = w)
    (hw : ∀ c ∈ w, c.isLower = true) : ink cs = cs.length := by
  induction cs generalizing w with
  | nil => rfl
  | cons c cs ih =>
      have hlower : c.toLower.isLower = true := hw c.toLower (by rw [← h]; exact List.mem_cons_self)
      have hc : (isBlank c || c == ';') = false := by
        cases hb : (isBlank c || c == ';') with
        | false => rfl
        | true =>
            simp only [isBlank, Bool.or_eq_true, decide_eq_true_eq, beq_iff_eq] at hb
            rcases hb with ((((rfl | rfl) | rfl) | rfl) | rfl) | rfl <;> revert hlower <;> decide
      rw [ink_cons, hc, ih rfl fun d hd => hw d (by rw [← h]; exact List.mem_cons_of_mem _ hd)]
      rfl

namespace Lexeme.Stops

variable {l : Lexeme} {r : List Char}

theorem ink_of_mark (h : l.Stops r) {m : Mark} (hk : l.kind = .mark m) :
    ink l.text.toList = if m = .semicolon then 0 else 1 := by
  rw [h.text_of_mark hk]
  cases m <;> decide

theorem ink_of_important (h : l.Stops r) (hk : l.kind = .important) : ink l.text.toList = 10 := by
  obtain ⟨cs, ht, hm⟩ := h.text_of_important hk
  obtain ⟨w, word, rfl, hw, hword⟩ := parts_of_important hm
  have hlen := congrArg List.length hword
  rw [List.length_map] at hlen
  have hbang : ∀ cs, ink ('!' :: cs) = ink cs + 1 := fun cs => by
    rw [ink_cons]
    rfl
  rw [ht, hbang, ink_blank_append hw, ink_of_lower hword (List.all_eq_true.1 (by decide)), hlen]
  rfl

theorem ink_of_keyword {t : Token} (h : t.Stops r) (hk : t.kind = .atKeyword) :
    ink t.text.toList = 1 + ink t.ruleName.toList := by
  obtain ⟨cs, ht, _⟩ := h.text_of_keyword hk
  have hat : ink ('@' :: cs) = ink cs + 1 := by
    rw [ink_cons]
    rfl
  rw [Token.ruleName, ht, hat]
  simp
  omega

end Lexeme.Stops

/-! ## Derivations -/

open Token (inks)

theorem DeclarationsRead.inks_eq {ts rest : List Token} {ds : List Declaration}
    (h : DeclarationsRead ts ds rest) (hs : ∀ t ∈ ts, ∃ r, t.Stops r) :
    inks ts = declarationsInk ds + 1 + inks rest := by
  induction h with
  | @close t ts ht =>
      obtain ⟨r, hr⟩ := hs t List.mem_cons_self
      rw [Token.inks_cons, hr.ink_of_mark (Token.is_iff.1 ht)]
      rfl
  | @skip t ts rest ds ht _ ih =>
      obtain ⟨r, hr⟩ := hs t List.mem_cons_self
      rw [Token.inks_cons, hr.ink_of_mark (Token.is_iff.1 ht), if_pos rfl, Nat.zero_add]
      exact ih fun u hu => hs u (List.mem_cons_of_mem _ hu)
  | @declare t u e ts us rest value ds ht hu hv he _ ih =>
      obtain ⟨taken, rest', rfl, htext, _, _, hrest⟩ := takeValue_eq_cons hv
      obtain ⟨r, hr⟩ := hs u (List.mem_cons_of_mem _ List.mem_cons_self)
      have hcolon := hr.ink_of_mark (Token.is_iff.1 hu)
      have hvalue := Spacing.value.ink_join taken
      rw [← htext] at hvalue
      have hsum : declarationsInk (⟨t.text, value⟩ :: ds) =
          ink t.text.toList + 1 + value.ink + declarationsInk ds := by
        simp [declarationsInk, Declaration.ink]
      rw [Token.inks_cons, Token.inks_cons, Token.inks_append, hcolon, ← hvalue, hsum, Value.ink]
      rcases hrest with ⟨rfl, hi⟩ | ⟨i, rfl, hik, hi⟩
      · rw [ih fun v hv => hs v (by simp [hv]), hi]
        simp
        omega
      · obtain ⟨r', hr'⟩ := hs i (by simp)
        rw [Token.inks_cons, hr'.ink_of_important hik,
          ih fun v hv => hs v (by
            simp only [List.mem_cons, List.mem_append] at hv ⊢
            exact .inr (.inr (.inr (.inr hv)))), hi]
        simp
        omega

theorem stops_of_rest {e : Token} {us vs : List Token} {ds : List Declaration}
    (hs : ∀ t ∈ e :: us, ∃ r, t.Stops r) (h : DeclarationsRead us ds vs) :
    ∀ t ∈ vs, ∃ r, t.Stops r := by
  obtain ⟨front, rfl⟩ := h.suffix
  exact fun t ht => hs t (List.mem_cons_of_mem _ (List.mem_append_right _ ht))

theorem inks_block {e : Token} {us vs : List Token} {ds : List Declaration}
    (he : e.is .braceOpen = true) (hs : ∀ t ∈ e :: us, ∃ r, t.Stops r)
    (h : DeclarationsRead us ds vs) : inks (e :: us) = declarationsInk ds + 2 + inks vs := by
  obtain ⟨r, hr⟩ := hs e List.mem_cons_self
  rw [Token.inks_cons, hr.ink_of_mark (Token.is_iff.1 he),
    h.inks_eq fun t ht => hs t (List.mem_cons_of_mem _ ht)]
  simp
  omega

/-- The ink that a list of entries takes, with the brace that closes its block. -/
theorem ItemsRead.inks_eq {depth : Nat} {ts rest : List Token} {items : List Item}
    (h : ItemsRead depth ts items rest) (hs : ∀ t ∈ ts, ∃ r, t.Stops r) :
    inks ts = itemsInk items + (if depth = 0 then 0 else 1) + inks rest := by
  induction h with
  | finish => rfl
  | @close depth t ts hd ht =>
      obtain ⟨r, hr⟩ := hs t List.mem_cons_self
      rw [Token.inks_cons, hr.ink_of_mark (Token.is_iff.1 ht), if_neg hd, itemsInk]
      rfl
  | @skip depth t ts rest items ht _ ih =>
      obtain ⟨r, hr⟩ := hs t List.mem_cons_self
      rw [Token.inks_cons, hr.ink_of_mark (Token.is_iff.1 ht), if_pos rfl, Nat.zero_add]
      exact ih fun u hu => hs u (List.mem_cons_of_mem _ hu)
  | @rule depth t e ts head us vs rest ds items _ _ hc he hds _ ih =>
      have hts := (collect_eq_cons hc).1
      rw [hts] at hs
      have hus : ∀ t ∈ e :: us, ∃ r, t.Stops r := fun u hu => hs u (List.mem_append_right _ hu)
      rw [hts, Token.inks_append, inks_block he hus hds, ih, itemsInk, Item.ink,
        Spacing.ink_join]
      · omega
      · exact stops_of_rest hus hds
  | @statement depth t ts head us rest items ht hc _ _ ih =>
      have hts := collect_append endsHead 0 ts
      rw [hc] at hts
      dsimp only at hts
      subst hts
      obtain ⟨r, hr⟩ := hs t List.mem_cons_self
      rw [Token.inks_cons, Token.inks_append, hr.ink_of_keyword ht,
        ih fun u hu => hs u (List.mem_cons_of_mem _ (List.mem_append_right _ hu)), itemsInk, Item.ink,
        headInk, Spacing.ink_join]
      omega
  | @descriptors depth t e ts head us vs rest ds items ht _ hc he hds _ ih =>
      have hts := (collect_eq_cons hc).1
      subst hts
      obtain ⟨r, hr⟩ := hs t List.mem_cons_self
      have hus : ∀ t ∈ e :: us, ∃ r, t.Stops r := fun u hu =>
        hs u (List.mem_cons_of_mem _ (List.mem_append_right _ hu))
      rw [Token.inks_cons, Token.inks_append, hr.ink_of_keyword ht, inks_block he hus hds, ih,
        itemsInk, Item.ink, headInk, Spacing.ink_join]
      · omega
      · exact stops_of_rest hus hds
  | @group depth t e ts head us vs rest body items ht _ hc he _ hbody _ ihbody ih =>
      have hts := (collect_eq_cons hc).1
      subst hts
      obtain ⟨r, hr⟩ := hs t List.mem_cons_self
      have hus : ∀ t ∈ e :: us, ∃ r, t.Stops r := fun u hu =>
        hs u (List.mem_cons_of_mem _ (List.mem_append_right _ hu))
      have hbrace := (hus e List.mem_cons_self).choose_spec.ink_of_mark (Token.is_iff.1 he)
      rw [Token.inks_cons, Token.inks_append, Token.inks_cons, hr.ink_of_keyword ht, hbrace,
        ihbody fun u hu => hus u (List.mem_cons_of_mem _ hu), ih, itemsInk, Item.ink, headInk,
        Spacing.ink_join]
      · simp
        omega
      · obtain ⟨front, rfl⟩ := hbody.suffix
        exact fun u hu => hus u (List.mem_cons_of_mem _ (List.mem_append_right _ hu))

/-! ## Comments -/

/-- A print from which its entries are read has no comment in it. -/
theorem uncommented_of_read {items : List Item} {pos : Position} {b : Bool}
    (h : ItemsRead 0 (Token.scan pos b (blankComments (printedItems f 0 items))) items []) :
    Uncommented (printedItems f 0 items) := by
  refine uncommented_of_ink (Nat.le_of_eq ?_)
  have hread := h.inks_eq Token.stops_of_mem_scan
  rw [Token.inks_scan] at hread
  rw [hread, ink_printedItems]
  rfl

end TieredStyle.Css
