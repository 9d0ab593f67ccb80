import TieredStyle.Proofs.Grammar.Accepted
import TieredStyle.Proofs.Grammar.Rest
import TieredStyle.Proofs.Lexing.Identifiers

/-!
# The shape of what is read

Whatever the text, the entries that are read have selectors, the names of their properties read as
themselves, the names of their at-rules say what the blocks hold, and only so many blocks stand inside one
another.
-/
namespace TieredStyle.Css

def Declaration.Named (d : Declaration) : Prop := readProperty d.property = .ok d.property

mutual
/-- An entry of the `depth`-th block inside one another. -/
def Item.Shaped (depth : Nat) : Item → Prop
  | .rule selector body => selector ≠ "" ∧ ∀ d ∈ body, d.Named
  | .statement .. => True
  | .descriptors name _ body => holdsItems name = false ∧ ∀ d ∈ body, d.Named
  | .group name _ body => holdsItems name = true ∧ depth < maxNesting ∧ ItemsShaped (depth + 1) body

def ItemsShaped (depth : Nat) : List Item → Prop
  | [] => True
  | item :: items => item.Shaped depth ∧ ItemsShaped depth items
end

theorem DeclarationsRead.named {ts rest : List Token} {ds : List Declaration}
    (h : DeclarationsRead ts ds rest) (hs : ∀ t ∈ ts, ∃ r, t.Stops r) : ∀ d ∈ ds, d.Named := by
  induction h with
  | close =>
      intro d hd
      cases hd
  | skip _ _ ih => exact ih fun t ht => hs t (List.mem_cons_of_mem _ ht)
  | @declare t u e ts us rest value ds hk _ hv _ _ ih =>
      obtain ⟨r, hr⟩ := hs t List.mem_cons_self
      rw [show t.toLexeme = ⟨.ident, t.text⟩ by rw [← hk]] at hr
      refine List.forall_mem_cons.2 ⟨readProperty_of_stops hr, ih fun t' ht' => hs t' ?_⟩
      obtain ⟨taken, rest', rfl, _, _, _, hrest⟩ := takeValue_eq_cons hv
      rcases hrest with ⟨rfl, _⟩ | ⟨i, rfl, _⟩
      · simp [ht']
      · simp [List.mem_cons.1 ht']

theorem ItemsRead.shaped {depth : Nat} {ts rest : List Token} {items : List Item}
    (h : ItemsRead depth ts items rest) (hs : ∀ t ∈ ts, ∃ r, t.Stops r) : ItemsShaped depth items := by
  induction h with
  | finish => trivial
  | close => trivial
  | skip _ _ ih => exact ih fun t ht => hs t (List.mem_cons_of_mem _ ht)
  | @rule depth t e ts head us vs rest ds items _ hend hc _ hds _ ih =>
      obtain ⟨hts, _, _⟩ := collect_eq_cons hc
      obtain ⟨front, rfl⟩ := hds.suffix
      rw [hts] at hs
      have hbody := hds.named fun t ht => hs t (by simp [List.mem_append.1 ht])
      refine ⟨⟨?_, hbody⟩, ih fun t ht => hs t (by simp [ht])⟩
      obtain ⟨head, rfl, _⟩ := exists_cons_of_collect hend hc
      obtain ⟨r, hr⟩ := hs t (by simp)
      exact Spacing.join_ne_empty hr head
  | @statement depth t ts head us rest items _ hc _ _ ih =>
      have hts := collect_append endsHead 0 ts
      rw [hc] at hts
      refine ⟨trivial, ih fun t ht => hs t ?_⟩
      rw [← hts]
      simp [ht]
  | @descriptors depth t e ts head us vs rest ds items _ hn hc _ hds _ ih =>
      obtain ⟨hts, _, _⟩ := collect_eq_cons hc
      obtain ⟨front, rfl⟩ := hds.suffix
      rw [hts] at hs
      have hbody := hds.named fun t ht => hs t (by simp [List.mem_append.1 ht])
      exact ⟨⟨hn, hbody⟩, ih fun t ht => hs t (by simp [ht])⟩
  | @group depth t e ts head us vs rest body items _ hn hc _ hd hbody _ ihbody ih =>
      obtain ⟨hts, _, _⟩ := collect_eq_cons hc
      obtain ⟨front, rfl⟩ := hbody.suffix
      rw [hts] at hs
      have hinner := ihbody fun t ht => hs t (by simp [List.mem_append.1 ht])
      exact ⟨⟨hn, hd, hinner⟩, ih fun t ht => hs t (by simp [ht])⟩

theorem itemsShaped_of_readItems {css : String} {items : List Item} (h : readItems css = .ok items) :
    ItemsShaped 0 items :=
  (readItems_eq_ok_iff.1 h).shaped Token.stops_of_mem_scan

end TieredStyle.Css
