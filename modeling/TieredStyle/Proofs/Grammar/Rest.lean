import TieredStyle.Proofs.Grammar.Collect
import TieredStyle.Proofs.Grammar.Derivation

/-! # What a derivation leaves -/
namespace TieredStyle.Css

theorem takeValue_eq {ts us : List Token} {value : Value} (h : takeValue ts = (value, us)) :
    ∃ taken rest, collect endsValue 0 ts = (taken, rest) ∧ value.text = Spacing.value.join taken ∧
      (rest = us ∧ value.important = false ∨
        ∃ t, rest = t :: us ∧ t.kind = .important ∧ value.important = true) := by
  refine ⟨_, _, rfl, ?_⟩
  rw [takeValue] at h
  dsimp only at h
  cases hrest : (collect endsValue 0 ts).2 with
  | nil =>
      rw [hrest] at h
      cases h
      exact ⟨rfl, .inl ⟨rfl, rfl⟩⟩
  | cons t rest =>
      rw [hrest, takeImportant] at h
      split at h
      next ht =>
        cases h
        exact ⟨rfl, .inr ⟨t, rfl, ht, rfl⟩⟩
      next =>
        cases h
        exact ⟨rfl, .inl ⟨rfl, rfl⟩⟩

/-- A value that ends before a token: its tokens, and its mark if it has one. -/
theorem takeValue_eq_cons {ts us : List Token} {e : Token} {value : Value}
    (h : takeValue ts = (value, e :: us)) :
    ∃ taken rest, ts = taken ++ rest ∧ value.text = Spacing.value.join taken ∧
      (∀ t ∈ rest.head?, endsValue t.kind = true) ∧ Passes endsValue 0 (taken.map (·.kind)) ∧
      (rest = e :: us ∧ value.important = false ∨
        ∃ t, rest = t :: e :: us ∧ t.kind = .important ∧ value.important = true) := by
  obtain ⟨taken, rest, hc, htext, hrest⟩ := takeValue_eq h
  rcases hrest with ⟨rfl, hi⟩ | ⟨t, rfl, ht, hi⟩
  · obtain ⟨hts, hstop, hpasses⟩ := collect_eq_cons hc
    exact ⟨taken, _, hts, htext, fun u hu => by cases hu; exact hstop, hpasses, .inl ⟨rfl, hi⟩⟩
  · obtain ⟨hts, hstop, hpasses⟩ := collect_eq_cons hc
    exact ⟨taken, _, hts, htext, fun u hu => by cases hu; exact hstop, hpasses, .inr ⟨t, rfl, ht, hi⟩⟩

/-- A value that ends before a token is the same whatever stands behind that. -/
theorem takeValue_before {ts us : List Token} {e : Token} {value : Value}
    (h : takeValue ts = (value, e :: us)) : ∃ front,
      ts = front ++ e :: us ∧ ∀ ws, takeValue (front ++ e :: ws) = (value, e :: ws) := by
  cases hc : collect endsValue 0 ts with
  | mk taken rest =>
      rw [takeValue, hc] at h
      cases rest with
      | nil => cases h
      | cons t rest =>
          obtain ⟨hts, hlocal⟩ := collect_before hc
          by_cases ht : t.kind = .important
          · simp only [takeImportant, ht, ↓reduceIte, Prod.mk.injEq] at h
            obtain ⟨rfl, rfl⟩ := h
            refine ⟨taken ++ [t], by simp [hts], fun ws => ?_⟩
            rw [List.append_assoc, List.singleton_append, takeValue, hlocal]
            simp only [takeImportant, ht, ↓reduceIte]
          · simp only [takeImportant, ht, ↓reduceIte, Prod.mk.injEq, List.cons.injEq] at h
            obtain ⟨rfl, rfl, rfl⟩ := h
            refine ⟨taken, hts, fun ws => ?_⟩
            rw [takeValue, hlocal]
            simp only [takeImportant, ht, ↓reduceIte]

/-! ## Depth -/

theorem depthAfter_mark {t : Token} {m : Mark} (h : t.is m = true)
    (hm : (Kind.mark m).depthAfter 0 = 0) : t.kind.depthAfter 0 = 0 := by
  rw [Token.is_iff.1 h, hm]

theorem DeclarationsRead.depth {ts rest : List Token} {ds : List Declaration}
    (h : DeclarationsRead ts ds rest) :
    depthAfterAll 0 (ts.map (·.kind)) = depthAfterAll 0 (rest.map (·.kind)) := by
  induction h with
  | close ht => exact depthAfterAll_cons (depthAfter_mark ht rfl)
  | skip ht _ ih => exact (depthAfterAll_cons (depthAfter_mark ht rfl)).trans ih
  | declare ht hu hv _ _ ih =>
      obtain ⟨taken, rest, rfl, _, _, hpasses, hrest⟩ := takeValue_eq_cons hv
      rw [depthAfterAll_cons (by rw [ht]; rfl), depthAfterAll_cons (depthAfter_mark hu rfl),
        List.map_append, depthAfterAll_append, hpasses.depthAfterAll_eq, ← ih]
      rcases hrest with ⟨rfl, _⟩ | ⟨i, rfl, hi, _⟩
      · rfl
      · exact depthAfterAll_cons (by rw [hi]; rfl)

/-- Inside a block no bracket stays open. -/
theorem ItemsRead.depth {depth : Nat} {ts rest : List Token} {items : List Item}
    (h : ItemsRead depth ts items rest) (hd : depth ≠ 0) :
    depthAfterAll 0 (ts.map (·.kind)) = depthAfterAll 0 (rest.map (·.kind)) := by
  induction h with
  | finish => exact absurd rfl hd
  | close _ ht => exact depthAfterAll_cons (depthAfter_mark ht rfl)
  | skip ht _ ih => exact (depthAfterAll_cons (depthAfter_mark ht rfl)).trans (ih hd)
  | rule _ _ hc he hds _ ih =>
      rw [depthAfterAll_of_collect hc, depthAfterAll_cons (depthAfter_mark he rfl), hds.depth, ih hd]
  | @statement depth t ts head us rest items ht hc _ hitems ih =>
      rw [depthAfterAll_cons (by rw [ht]; rfl), ← ih hd]
      cases us with
      | nil =>
          cases hitems
          exact absurd rfl hd
      | cons e us => exact depthAfterAll_of_collect hc
  | descriptors ht _ hc he hds _ ih =>
      rw [depthAfterAll_cons (by rw [ht]; rfl), depthAfterAll_of_collect hc,
        depthAfterAll_cons (depthAfter_mark he rfl), hds.depth, ih hd]
  | group ht _ hc he _ _ _ ihbody ih =>
      rw [depthAfterAll_cons (by rw [ht]; rfl), depthAfterAll_of_collect hc,
        depthAfterAll_cons (depthAfter_mark he rfl), ihbody (Nat.succ_ne_zero _), ih hd]

/-! ## What stands before -/

/-- The declarations of a block are the same whatever stands behind it. -/
theorem DeclarationsRead.before {ts rest : List Token} {ds : List Declaration}
    (h : DeclarationsRead ts ds rest) : ∃ e front, ts = e :: (front ++ rest) ∧
      ∀ rest', DeclarationsRead (e :: (front ++ rest')) ds rest' := by
  induction h with
  | @close t ts ht => exact ⟨t, [], rfl, fun _ => .close ht⟩
  | @skip t ts rest ds ht _ ih =>
      obtain ⟨e, front, rfl, hlocal⟩ := ih
      exact ⟨t, e :: front, rfl, fun rest' => .skip ht (hlocal rest')⟩
  | @declare t u e ts us rest value ds ht hu hv he _ ih =>
      obtain ⟨front, rfl, hvalue⟩ := takeValue_before hv
      obtain ⟨_, front', heq, hlocal⟩ := ih
      obtain ⟨rfl, rfl⟩ := List.cons.inj heq
      refine ⟨t, u :: (front ++ e :: front'), by simp, fun rest' => ?_⟩
      have hdeclare := DeclarationsRead.declare ht hu (hvalue (front' ++ rest')) he (hlocal rest')
      simpa using hdeclare

/-- The entries of a block are the same whatever stands behind it. -/
theorem ItemsRead.before {depth : Nat} {ts rest : List Token} {items : List Item}
    (h : ItemsRead depth ts items rest) (hd : depth ≠ 0) : ∃ e front, ts = e :: (front ++ rest) ∧
      ∀ rest', ItemsRead depth (e :: (front ++ rest')) items rest' := by
  induction h with
  | finish => exact absurd rfl hd
  | @close _ t _ hne ht => exact ⟨t, [], rfl, fun _ => .close hne ht⟩
  | @skip _ t _ _ _ ht _ ih =>
      obtain ⟨e, front, rfl, hlocal⟩ := ih hd
      exact ⟨t, e :: front, rfl, fun rest' => .skip ht (hlocal rest')⟩
  | @rule _ t e ts head us vs rest ds _ hk hend hc he hds _ ih =>
      obtain ⟨head', rfl, hhead⟩ := collect_cons_before hend hc
      obtain ⟨b, body, rfl, hbody⟩ := hds.before
      obtain ⟨f, front, rfl, hlocal⟩ := ih hd
      refine ⟨t, head' ++ e :: b :: (body ++ f :: front), by simp, fun rest' => ?_⟩
      have hrule := ItemsRead.rule hk hend (hhead _) he (hbody _) (hlocal rest')
      simpa using hrule
  | @statement _ t ts head us rest _ hk hc he _ ih =>
      obtain ⟨f, front, rfl, hlocal⟩ := ih hd
      obtain ⟨rfl, hhead⟩ := collect_before hc
      refine ⟨t, head ++ f :: front, by simp, fun rest' => ?_⟩
      have hstatement := ItemsRead.statement hk (hhead (front ++ rest')) he (hlocal rest')
      simpa using hstatement
  | @descriptors _ t e ts head us vs rest ds _ hk hn hc he hds _ ih =>
      obtain ⟨rfl, hhead⟩ := collect_before hc
      obtain ⟨b, body, rfl, hbody⟩ := hds.before
      obtain ⟨f, front, rfl, hlocal⟩ := ih hd
      refine ⟨t, head ++ e :: b :: (body ++ f :: front), by simp, fun rest' => ?_⟩
      have hdescriptors := ItemsRead.descriptors hk hn (hhead _) he (hbody _) (hlocal rest')
      simpa using hdescriptors
  | @group depth t e ts head us vs rest _ _ hk hn hc he hlt _ _ ihbody ih =>
      obtain ⟨rfl, hhead⟩ := collect_before hc
      obtain ⟨b, body, rfl, hbody⟩ := ihbody (Nat.succ_ne_zero depth)
      obtain ⟨f, front, rfl, hlocal⟩ := ih hd
      refine ⟨t, head ++ e :: b :: (body ++ f :: front), by simp, fun rest' => ?_⟩
      have hgroup := ItemsRead.group hk hn (hhead _) he hlt (hbody _) (hlocal rest')
      simpa using hgroup

theorem DeclarationsRead.suffix {ts rest : List Token} {ds : List Declaration}
    (h : DeclarationsRead ts ds rest) : ∃ front, ts = front ++ rest := by
  obtain ⟨e, front, hts, _⟩ := h.before
  exact ⟨e :: front, hts⟩

/-- A stylesheet leaves nothing. -/
theorem ItemsRead.rest_eq_nil {depth : Nat} {ts rest : List Token} {items : List Item}
    (h : ItemsRead depth ts items rest) (hd : depth = 0) : rest = [] := by
  induction h with
  | finish => rfl
  | close hne => exact absurd hd hne
  | skip _ _ ih => exact ih hd
  | rule _ _ _ _ _ _ ih => exact ih hd
  | statement _ _ _ _ ih => exact ih hd
  | descriptors _ _ _ _ _ _ ih => exact ih hd
  | group _ _ _ _ _ _ _ _ ih => exact ih hd

theorem ItemsRead.suffix {depth : Nat} {ts rest : List Token} {items : List Item}
    (h : ItemsRead depth ts items rest) : ∃ front, ts = front ++ rest := by
  by_cases hd : depth = 0
  · refine ⟨ts, ?_⟩
    rw [h.rest_eq_nil hd, List.append_nil]
  · obtain ⟨e, front, hts, _⟩ := h.before hd
    exact ⟨e :: front, hts⟩

end TieredStyle.Css
