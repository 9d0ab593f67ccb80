import TieredStyle.Proofs.Grammar.Failed
import TieredStyle.Proofs.Grammar.Rest

/-!
# Where an error is raised

What has been read is read whatever follows, and so a token that is objected to is, whatever stands behind it. Hence
each error about a token is about one of the tokens, which is in the way behind those before it.
-/
namespace TieredStyle.Css
open TieredStyle.Text

/-- An error about the token at this position, which is one of the tokens and in the way whatever stands behind
it. -/
def RaisedIn (Fail : List Token → ParseError → Prop) (ts : List Token) (pos : Position) (o : Objection) : Prop :=
  ∃ us t vs, ts = us ++ t :: vs ∧ pos = t.start ∧ ∀ ws, Fail (us ++ t :: ws) (t.unexpected o)

section

variable {Fail Fail' : List Token → ParseError → Prop} {ts : List Token} {pos : Position} {o : Objection}

/-- An error about the first token behind a run of others. -/
theorem raisedIn_of_unexpected (us : List Token) {vs : List Token} {t : Token} {o' : Objection}
    (h : t.unexpected o' = .unexpectedToken pos o) (hfail : ∀ ws, Fail (us ++ t :: ws) (t.unexpected o')) :
    RaisedIn Fail (us ++ t :: vs) pos o := by
  cases h
  exact ⟨us, t, vs, rfl, rfl, hfail⟩

/-- What stands in front of the tokens changes nothing, as long as it is read whatever stands behind the first of
them. -/
theorem RaisedIn.behind (h : RaisedIn Fail ts pos o) {g : List Token → List Token} (front : List Token)
    (hg : ∀ us, g us = front ++ us) (hfront : ∀ us x, us.head? = ts.head? → Fail us x → Fail' (g us) x) :
    RaisedIn Fail' (g ts) pos o := by
  obtain ⟨us, t, vs, rfl, hpos, hfail⟩ := h
  refine ⟨front ++ us, t, vs, by simp [hg], hpos, fun ws => ?_⟩
  rw [List.append_assoc, ← hg]
  apply hfront _ _ _ (hfail ws)
  cases us <;> rfl

end

theorem DeclarationsFail.raisedIn {ts : List Token} {x : ParseError} (h : DeclarationsFail ts x)
    {pos : Position} {o : Objection} (hx : x = .unexpectedToken pos o) :
    RaisedIn DeclarationsFail ts pos o := by
  induction h with
  | ended => cases hx
  | @skip t ts x ht _ ih => exact (ih hx).behind [t] (fun _ => rfl) fun _ _ _ h => .skip ht h
  | @name t ts hb hs hk => exact raisedIn_of_unexpected [] hx fun _ => .name hb hs hk
  | colonEnded => cases hx
  | @colon t u ts hk hu => exact raisedIn_of_unexpected [t] hx fun _ => .colon hk hu
  | valueEnded => cases hx
  | @value t u e ts us value hk hu hv hs hb =>
      obtain ⟨front, rfl, hvalue⟩ := takeValue_before hv
      exact raisedIn_of_unexpected (t :: u :: front) hx fun ws => .value hk hu (hvalue ws) hs hb
  | @declare t u e ts us value x hk hu hv hs _ ih =>
      obtain ⟨front, rfl, hvalue⟩ := takeValue_before hv
      exact (ih hx).behind (g := fun us => t :: u :: (front ++ e :: us)) (t :: u :: (front ++ [e])) (by simp)
        fun us _ _ h => .declare hk hu (hvalue us) hs h

theorem ItemsFail.raisedIn {depth : Nat} {ts : List Token} {x : ParseError} (h : ItemsFail depth ts x)
    {pos : Position} {o : Objection} (hx : x = .unexpectedToken pos o) :
    RaisedIn (ItemsFail depth) ts pos o := by
  induction h with
  | ended => cases hx
  | unmatched ht => exact raisedIn_of_unexpected [] hx fun _ => .unmatched ht
  | @skip _ t _ _ ht _ ih => exact (ih hx).behind [t] (fun _ => rfl) fun _ _ _ h => .skip ht h
  | selector ht => exact raisedIn_of_unexpected [] hx fun _ => .selector ht
  | headEnded => cases hx
  | @head _ t e ts head us hk hend hc he =>
      obtain ⟨head', rfl, hhead⟩ := collect_cons_before hend hc
      exact raisedIn_of_unexpected (t :: head') hx fun ws => .head hk hend (hhead ws) he
  | @ruleBody depth t e ts head us x hk hend hc he hds =>
      obtain ⟨head', rfl, hhead⟩ := collect_cons_before hend hc
      exact (hds.raisedIn hx).behind (g := fun us => t :: (head' ++ e :: us)) (t :: (head' ++ [e])) (by simp)
        fun us _ _ h => .ruleBody hk hend (hhead us) he h
  | @rule depth t e ts head us vs ds x hk hend hc he hds _ ih =>
      obtain ⟨head', rfl, hhead⟩ := collect_cons_before hend hc
      obtain ⟨b, body, rfl, hbody⟩ := hds.before
      exact (ih hx).behind (g := fun us => t :: (head' ++ e :: b :: (body ++ us))) (t :: (head' ++ e :: b :: body))
        (by simp) fun us _ _ h => .rule hk hend (hhead _) he (hbody us) h
  | @statement depth t ts head us x hk hc he _ ih =>
      have hraised := ih hx
      cases us with
      | nil =>
          obtain ⟨us', _, _, hnil, _⟩ := hraised
          cases us' <;> cases hnil
      | cons e us =>
          obtain ⟨rfl, hhead⟩ := collect_before hc
          refine hraised.behind (g := fun us => t :: (head ++ us)) (t :: head) (fun _ => rfl) fun us x hus h => ?_
          cases us with
          | nil => cases hus
          | cons e' us =>
              cases hus
              exact .statement hk (hhead us) he h
  | @tooDeep depth t e ts head us hk hn hc he hd =>
      obtain ⟨rfl, hhead⟩ := collect_before hc
      exact raisedIn_of_unexpected (t :: head) hx fun ws => .tooDeep hk hn (hhead ws) he hd
  | @descriptorsBody depth t e ts head us x hk hn hc he hds =>
      obtain ⟨rfl, hhead⟩ := collect_before hc
      exact (hds.raisedIn hx).behind (g := fun us => t :: (head ++ e :: us)) (t :: (head ++ [e])) (by simp)
        fun us _ _ h => .descriptorsBody hk hn (hhead us) he h
  | @descriptors depth t e ts head us vs ds x hk hn hc he hds _ ih =>
      obtain ⟨rfl, hhead⟩ := collect_before hc
      obtain ⟨b, body, rfl, hbody⟩ := hds.before
      exact (ih hx).behind (g := fun us => t :: (head ++ e :: b :: (body ++ us))) (t :: (head ++ e :: b :: body))
        (by simp) fun us _ _ h => .descriptors hk hn (hhead _) he (hbody us) h
  | @groupBody depth t e ts head us x hk hn hc he hd _ ih =>
      obtain ⟨rfl, hhead⟩ := collect_before hc
      exact (ih hx).behind (g := fun us => t :: (head ++ e :: us)) (t :: (head ++ [e])) (by simp)
        fun us _ _ h => .groupBody hk hn (hhead us) he hd h
  | @group depth t e ts head us vs body x hk hn hc he hd hbody _ ih =>
      obtain ⟨rfl, hhead⟩ := collect_before hc
      obtain ⟨b, inner, rfl, hinner⟩ := hbody.before (Nat.succ_ne_zero depth)
      exact (ih hx).behind (g := fun us => t :: (head ++ e :: b :: (inner ++ us))) (t :: (head ++ e :: b :: inner))
        (by simp) fun us _ _ h => .group hk hn (hhead _) he hd (hinner us) h

end TieredStyle.Css
