import TieredStyle.Css.Sheet.OfItems
import TieredStyle.Proofs.Grammar.Failed
import TieredStyle.Proofs.Grammar.Rest
import TieredStyle.Proofs.Lexing.Respacing

/-!
# Tokens that are read alike

Only the kinds of tokens and the names of at-rules decide what can be read, so tokens that agree in these are cut
into the same entries, up to texts. With the same texts and gaps they are read as the same entries, or they fail
alike.
-/
namespace TieredStyle.Css
open Token (bare unplaced)

/-- The error without the place of its token. -/
def ParseError.placeless : ParseError → ParseError
  | .unexpectedToken _ objection => .unexpectedToken {} objection
  | .unexpectedEnd wanted => .unexpectedEnd wanted

/-- The grammar tells the tokens apart by nothing but the text. -/
structure Token.Akin (t u : Token) : Prop where
  kind : u.kind = t.kind
  name : t.kind = .atKeyword → u.ruleName = t.ruleName

/-- Tokens that the grammar treats alike and that, if `verbatim`, have the same texts and gaps. -/
structure Retold (verbatim : Prop) (ts us : List Token) : Prop where
  akin : List.Forall₂ Token.Akin ts us
  bare : verbatim → bare ts = bare us

/-! ## Runs of tokens -/

namespace Token

variable {t u : Token} {ts ts' us us' : List Token}

theorem Akin.is {m : Mark} {b : Bool} (h : t.Akin u) (ht : t.is m = b) : u.is m = b := by
  rwa [Token.is, h.kind]

theorem Akin.holdsItems {b : Bool} (h : t.Akin u) (ht : t.kind = .atKeyword) (hn : holdsItems t.ruleName = b) :
    Css.holdsItems u.ruleName = b := by
  rwa [h.name ht]

theorem bare_of_unplaced (h : ts.map unplaced = us.map unplaced) : bare ts = bare us := by
  cases ts with
  | nil =>
      cases us with
      | nil => rfl
      | cons u us => cases h
  | cons t ts =>
      cases us with
      | nil => cases h
      | cons u us =>
          obtain ⟨hhead, htail⟩ := List.cons.inj h
          have hlexeme : (unplaced t).toLexeme = (unplaced u).toLexeme := congrArg Token.toLexeme hhead
          change t.toLexeme = u.toLexeme at hlexeme
          rw [bare, bare, hlexeme, htail]

theorem lexeme_bare (ts : List Token) : (bare ts).map (·.toLexeme) = ts.map (·.toLexeme) := by
  cases ts with
  | nil => rfl
  | cons t ts => simp [bare, unplaced]

theorem bare_append_inj (hlength : ts.length = us.length) (h : bare (ts ++ ts') = bare (us ++ us')) :
    bare ts = bare us ∧ bare ts' = bare us' := by
  cases ts with
  | nil =>
      cases us with
      | nil => exact ⟨rfl, h⟩
      | cons u us => cases hlength
  | cons t ts =>
      cases us with
      | nil => cases hlength
      | cons u us =>
          rw [List.cons_append, List.cons_append, bare, bare, List.map_append, List.map_append] at h
          obtain ⟨hhead, htail⟩ := List.cons.inj h
          obtain ⟨hts, hts'⟩ := List.append_inj htail (by simpa using hlength)
          refine ⟨?_, bare_of_unplaced hts'⟩
          rw [bare, bare, hhead, hts]

end Token

theorem forall₂_lexeme {ts us : List Token} (h : ts.map (·.toLexeme) = us.map (·.toLexeme)) :
    List.Forall₂ (fun t u : Token => u.toLexeme = t.toLexeme) ts us := by
  have heq : List.Forall₂ (· = ·) (us.map (·.toLexeme)) (ts.map (·.toLexeme)) := by
    rw [List.forall₂_eq_eq_eq]
    exact h.symm
  rw [List.forall₂_map_left_iff, List.forall₂_map_right_iff] at heq
  exact heq.flip

/-- What is collected depends on the kinds alone. -/
theorem forall₂_collect {R : Token → Token → Prop} (hR : ∀ t u, R t u → u.kind = t.kind) {ts us : List Token}
    (h : List.Forall₂ R ts us) (stop : Kind → Bool) (depth : Nat) :
    List.Forall₂ R (collect stop depth ts).1 (collect stop depth us).1 ∧
      List.Forall₂ R (collect stop depth ts).2 (collect stop depth us).2 := by
  induction h generalizing depth with
  | nil => exact ⟨.nil, .nil⟩
  | @cons t u ts us ht hts ih =>
      rw [collect, collect, hR t u ht]
      split
      · exact ⟨.nil, .cons ht hts⟩
      · obtain ⟨htaken, hrest⟩ := ih (t.kind.depthAfter depth)
        exact ⟨.cons ht htaken, hrest⟩

namespace Retold

variable {verbatim : Prop} {t : Token} {ts us taken rest : List Token}

theorem nil (h : Retold verbatim [] us) : us = [] := by
  cases h.akin
  rfl

theorem cons (h : Retold verbatim (t :: ts) us) : ∃ u us', us = u :: us' ∧ t.Akin u ∧
    (verbatim → u.text = t.text) ∧ Retold verbatim ts us' := by
  obtain ⟨hakin, hbare⟩ := h
  cases hakin with
  | @cons _ u _ us' hu hus =>
      refine ⟨u, us', rfl, hu, fun hv => ?_, hus, fun hv => ?_⟩
      · exact (congrArg (·.text) (List.cons.inj (hbare hv)).1).symm
      · exact Token.bare_of_unplaced (List.cons.inj (hbare hv)).2

theorem join (h : Retold verbatim ts us) (hv : verbatim) (s : Spacing) : s.join us = s.join ts :=
  (Spacing.join_of_bare (h.bare hv)).symm

theorem collect {stop : Kind → Bool} (h : Retold verbatim ts us) (hc : collect stop 0 ts = (taken, rest)) :
    ∃ taken' rest', Css.collect stop 0 us = (taken', rest') ∧ Retold verbatim taken taken' ∧
      Retold verbatim rest rest' := by
  obtain ⟨htaken, hrest⟩ := forall₂_collect (fun _ _ h => h.kind) h.akin stop 0
  have hts := collect_append stop 0 ts
  have hus := collect_append stop 0 us
  rw [hc] at htaken hrest hts
  have hbare (hv : verbatim) := Token.bare_append_inj htaken.length_eq (by rw [hts, hus, h.bare hv])
  exact ⟨_, _, rfl, ⟨htaken, fun hv => (hbare hv).1⟩, ⟨hrest, fun hv => (hbare hv).2⟩⟩

theorem head? {m : Mark} (h : Retold verbatim ts us) (hts : ∀ t ∈ ts.head?, t.is m = false) {u : Token}
    (hu : u ∈ us.head?) : u.is m = false := by
  cases ts with
  | nil =>
      rw [h.nil] at hu
      cases hu
  | cons t ts =>
      obtain ⟨u, us, rfl, hakin, _, _⟩ := h.cons
      cases hu
      exact hakin.is (hts t rfl)

/-- A run that ends before a token. -/
theorem collect_cons {stop : Kind → Bool} {e : Token} (h : Retold verbatim ts us)
    (hc : Css.collect stop 0 ts = (taken, e :: rest)) : ∃ taken' e' rest',
      Css.collect stop 0 us = (taken', e' :: rest') ∧ Retold verbatim taken taken' ∧ e.Akin e' ∧
        (verbatim → e'.text = e.text) ∧ Retold verbatim rest rest' := by
  obtain ⟨taken', behind, hc', htaken, hbehind⟩ := h.collect hc
  obtain ⟨e', rest', rfl, he, htext, hrest⟩ := hbehind.cons
  exact ⟨taken', e', rest', hc', htaken, he, htext, hrest⟩

theorem takeImportant (h : Retold verbatim ts us) : (Css.takeImportant us).1 = (Css.takeImportant ts).1 ∧
    Retold verbatim (Css.takeImportant ts).2 (Css.takeImportant us).2 := by
  cases ts with
  | nil =>
      obtain rfl := h.nil
      exact ⟨rfl, h⟩
  | cons t ts =>
      obtain ⟨u, us, rfl, hu, _, hus⟩ := h.cons
      rw [Css.takeImportant, Css.takeImportant, hu.kind]
      split
      · exact ⟨rfl, hus⟩
      · exact ⟨rfl, h⟩

theorem takeValue {value : Value} (h : Retold verbatim ts us) (hv : takeValue ts = (value, rest)) :
    ∃ value' rest', Css.takeValue us = (value', rest') ∧ (verbatim → value' = value) ∧
      Retold verbatim rest rest' := by
  obtain ⟨taken, behind, hc⟩ : ∃ taken behind, Css.collect endsValue 0 ts = (taken, behind) := ⟨_, _, rfl⟩
  obtain ⟨taken', behind', hc', htaken, hbehind⟩ := h.collect hc
  obtain ⟨himportant, hrest⟩ := hbehind.takeImportant
  rw [Css.takeValue, hc] at hv
  have hvalue : (⟨Spacing.value.join taken, (Css.takeImportant behind).1⟩ : Value) = value :=
    congrArg Prod.fst hv
  have hbehind : (Css.takeImportant behind).2 = rest := congrArg Prod.snd hv
  rw [hbehind] at hrest
  refine ⟨_, _, by rw [Css.takeValue, hc'], fun v => ?_, hrest⟩
  rw [himportant, htaken.join v, hvalue]

end Retold

/-! ## Declarations -/

theorem DeclarationsRead.retold {verbatim : Prop} {ts us rest : List Token} {ds : List Declaration}
    (h : DeclarationsRead ts ds rest) (hr : Retold verbatim ts us) : ∃ ds' rest', DeclarationsRead us ds' rest' ∧
      (verbatim → ds' = ds) ∧ Retold verbatim rest rest' := by
  induction h generalizing us with
  | close ht =>
      obtain ⟨u, us, rfl, hu, _, hr⟩ := hr.cons
      exact ⟨_, us, .close (hu.is ht), fun _ => rfl, hr⟩
  | skip ht _ ih =>
      obtain ⟨u, us, rfl, hu, _, hr⟩ := hr.cons
      obtain ⟨ds', rest', hread, hds, hrest⟩ := ih hr
      exact ⟨ds', rest', .skip (hu.is ht) hread, hds, hrest⟩
  | declare ht hc hv he _ ih =>
      obtain ⟨t', us, rfl, ht', htext, hr⟩ := hr.cons
      obtain ⟨c', us, rfl, hc', _, hr⟩ := hr.cons
      obtain ⟨value', behind, hv', hvalue, hr⟩ := hr.takeValue hv
      obtain ⟨ds', rest', hread, hds, hrest⟩ := ih hr
      obtain ⟨e', us', rfl, he', _, _⟩ := hr.cons
      refine ⟨_, rest', .declare (ht'.kind.trans ht) (hc'.is hc) hv' ?_ hread, fun v => ?_, hrest⟩
      · exact he.imp he'.is he'.is
      · rw [htext v, hvalue v, hds v]

theorem DeclarationsFail.retold {ts us : List Token} {x : ParseError} (h : DeclarationsFail ts x)
    (hr : Retold True ts us) : ∃ y, DeclarationsFail us y ∧ y.placeless = x.placeless := by
  induction h generalizing us with
  | ended =>
      rw [hr.nil]
      exact ⟨_, .ended, rfl⟩
  | skip ht _ ih =>
      obtain ⟨u, us, rfl, hu, _, hr⟩ := hr.cons
      obtain ⟨y, hfail, hy⟩ := ih hr
      exact ⟨y, .skip (hu.is ht) hfail, hy⟩
  | name hclose hsemi hk =>
      obtain ⟨u, us, rfl, hu, htext, hr⟩ := hr.cons
      refine ⟨_, .name (hu.is hclose) (hu.is hsemi) (hu.kind ▸ hk), ?_⟩
      rw [htext trivial]
      rfl
  | colonEnded hk =>
      obtain ⟨u, us, rfl, hu, _, hr⟩ := hr.cons
      rw [hr.nil]
      exact ⟨_, .colonEnded (hu.kind.trans hk), rfl⟩
  | colon hk hc =>
      obtain ⟨t', us, rfl, ht', _, hr⟩ := hr.cons
      obtain ⟨c', us, rfl, hc', htext, hr⟩ := hr.cons
      refine ⟨_, .colon (ht'.kind.trans hk) (hc'.is hc), ?_⟩
      rw [htext trivial]
      rfl
  | valueEnded hk hc hv =>
      obtain ⟨t', us, rfl, ht', _, hr⟩ := hr.cons
      obtain ⟨c', us, rfl, hc', _, hr⟩ := hr.cons
      obtain ⟨value', behind, hv', _, hr⟩ := hr.takeValue hv
      rw [hr.nil] at hv'
      exact ⟨_, .valueEnded (ht'.kind.trans hk) (hc'.is hc) hv', rfl⟩
  | value hk hc hv hsemi hclose =>
      obtain ⟨t', us, rfl, ht', _, hr⟩ := hr.cons
      obtain ⟨c', us, rfl, hc', _, hr⟩ := hr.cons
      obtain ⟨value', behind, hv', _, hr⟩ := hr.takeValue hv
      obtain ⟨e', us', rfl, he', htext, _⟩ := hr.cons
      refine ⟨_, .value (ht'.kind.trans hk) (hc'.is hc) hv' (he'.is hsemi) (he'.is hclose), ?_⟩
      rw [htext trivial]
      rfl
  | declare hk hc hv he _ ih =>
      obtain ⟨t', us, rfl, ht', _, hr⟩ := hr.cons
      obtain ⟨c', us, rfl, hc', _, hr⟩ := hr.cons
      obtain ⟨value', behind, hv', _, hr⟩ := hr.takeValue hv
      obtain ⟨e', us', rfl, he', _, hr⟩ := hr.cons
      obtain ⟨y, hfail, hy⟩ := ih hr
      exact ⟨y, .declare (ht'.kind.trans hk) (hc'.is hc) hv' (he'.is he) hfail, hy⟩

/-! ## Entries -/

theorem ItemsRead.retold {verbatim : Prop} {depth : Nat} {ts us rest : List Token} {items : List Item}
    (h : ItemsRead depth ts items rest) (hr : Retold verbatim ts us) : ∃ items' rest',
      ItemsRead depth us items' rest' ∧ (verbatim → items' = items) ∧ Retold verbatim rest rest' := by
  induction h generalizing us with
  | finish =>
      obtain rfl := hr.nil
      exact ⟨_, _, .finish, fun _ => rfl, hr⟩
  | close hd ht =>
      obtain ⟨u, us, rfl, hu, _, hr⟩ := hr.cons
      exact ⟨_, us, .close hd (hu.is ht), fun _ => rfl, hr⟩
  | skip ht _ ih =>
      obtain ⟨u, us, rfl, hu, _, hr⟩ := hr.cons
      obtain ⟨items', rest', hread, hitems, hrest⟩ := ih hr
      exact ⟨items', rest', .skip (hu.is ht) hread, hitems, hrest⟩
  | rule hk hend hc he hds _ ih =>
      obtain ⟨head', e', behind, hc', hhead, he', _, hbehind⟩ := hr.collect_cons hc
      obtain ⟨u, us, rfl, hu, _, _⟩ := hr.cons
      obtain ⟨ds', after, hds', hds, hafter⟩ := hds.retold hbehind
      obtain ⟨items', rest', hread, hitems, hrest⟩ := ih hafter
      refine ⟨_, rest', .rule (hu.kind ▸ hk) (hu.kind ▸ hend) hc' (he'.is he) hds' hread,
        fun v => ?_, hrest⟩
      rw [hhead.join v, hds v, hitems v]
  | statement hk hc he _ ih =>
      obtain ⟨u, us, rfl, hu, _, hr⟩ := hr.cons
      obtain ⟨head', behind, hc', hhead, hbehind⟩ := hr.collect hc
      obtain ⟨items', rest', hread, hitems, hrest⟩ := ih hbehind
      refine ⟨_, rest', .statement (hu.kind.trans hk) hc' (fun e' he' => ?_) hread, fun v => ?_, hrest⟩
      · exact hbehind.head? he he'
      · rw [hhead.join v, hu.name hk, hitems v]
  | descriptors hk hn hc he hds _ ih =>
      obtain ⟨u, us, rfl, hu, _, hr⟩ := hr.cons
      obtain ⟨head', e', behind, hc', hhead, he', _, hbehind⟩ := hr.collect_cons hc
      obtain ⟨ds', after, hds', hds, hafter⟩ := hds.retold hbehind
      obtain ⟨items', rest', hread, hitems, hrest⟩ := ih hafter
      refine ⟨_, rest', .descriptors (hu.kind.trans hk) (hu.holdsItems hk hn) hc' (he'.is he) hds' hread,
        fun v => ?_, hrest⟩
      rw [hhead.join v, hu.name hk, hds v, hitems v]
  | group hk hn hc he hd _ _ ihbody ih =>
      obtain ⟨u, us, rfl, hu, _, hr⟩ := hr.cons
      obtain ⟨head', e', behind, hc', hhead, he', _, hbehind⟩ := hr.collect_cons hc
      obtain ⟨body', after, hbody', hbody, hafter⟩ := ihbody hbehind
      obtain ⟨items', rest', hread, hitems, hrest⟩ := ih hafter
      refine ⟨_, rest', .group (hu.kind.trans hk) (hu.holdsItems hk hn) hc' (he'.is he) hd hbody' hread,
        fun v => ?_, hrest⟩
      rw [hhead.join v, hu.name hk, hbody v, hitems v]

theorem ItemsFail.retold {depth : Nat} {ts us : List Token} {x : ParseError} (h : ItemsFail depth ts x)
    (hr : Retold True ts us) : ∃ y, ItemsFail depth us y ∧ y.placeless = x.placeless := by
  induction h generalizing us with
  | ended hd =>
      obtain rfl := hr.nil
      exact ⟨_, .ended hd, rfl⟩
  | unmatched ht =>
      obtain ⟨u, us, rfl, hu, _, _⟩ := hr.cons
      exact ⟨_, .unmatched (hu.is ht), rfl⟩
  | skip ht _ ih =>
      obtain ⟨u, us, rfl, hu, _, hr⟩ := hr.cons
      obtain ⟨y, hfail, hy⟩ := ih hr
      exact ⟨y, .skip (hu.is ht) hfail, hy⟩
  | selector ht =>
      obtain ⟨u, us, rfl, hu, htext, _⟩ := hr.cons
      refine ⟨_, .selector (hu.is ht), ?_⟩
      rw [htext trivial]
      rfl
  | headEnded hk hend hc =>
      obtain ⟨head', behind, hc', _, hbehind⟩ := hr.collect hc
      obtain rfl := hbehind.nil
      obtain ⟨u, us, rfl, hu, _, _⟩ := hr.cons
      exact ⟨_, .headEnded (hu.kind ▸ hk) (hu.kind ▸ hend) hc', rfl⟩
  | head hk hend hc he =>
      obtain ⟨head', e', behind, hc', _, he', htext, _⟩ := hr.collect_cons hc
      obtain ⟨u, us, rfl, hu, _, _⟩ := hr.cons
      refine ⟨_, .head (hu.kind ▸ hk) (hu.kind ▸ hend) hc' (he'.is he), ?_⟩
      rw [htext trivial]
      rfl
  | ruleBody hk hend hc he hds =>
      obtain ⟨head', e', behind, hc', _, he', _, hbehind⟩ := hr.collect_cons hc
      obtain ⟨u, us, rfl, hu, _, _⟩ := hr.cons
      obtain ⟨y, hfail, hy⟩ := hds.retold hbehind
      exact ⟨y, .ruleBody (hu.kind ▸ hk) (hu.kind ▸ hend) hc' (he'.is he) hfail, hy⟩
  | rule hk hend hc he hds _ ih =>
      obtain ⟨head', e', behind, hc', _, he', _, hbehind⟩ := hr.collect_cons hc
      obtain ⟨u, us, rfl, hu, _, _⟩ := hr.cons
      obtain ⟨ds', after, hds', _, hafter⟩ := hds.retold hbehind
      obtain ⟨y, hfail, hy⟩ := ih hafter
      exact ⟨y, .rule (hu.kind ▸ hk) (hu.kind ▸ hend) hc' (he'.is he) hds' hfail, hy⟩
  | statement hk hc he _ ih =>
      obtain ⟨u, us, rfl, hu, _, hr⟩ := hr.cons
      obtain ⟨head', behind, hc', _, hbehind⟩ := hr.collect hc
      obtain ⟨y, hfail, hy⟩ := ih hbehind
      exact ⟨y, .statement (hu.kind.trans hk) hc' (fun e' he' => hbehind.head? he he') hfail, hy⟩
  | tooDeep hk hn hc he hd =>
      obtain ⟨u, us, rfl, hu, _, hr⟩ := hr.cons
      obtain ⟨head', e', behind, hc', _, he', _, _⟩ := hr.collect_cons hc
      exact ⟨_, .tooDeep (hu.kind.trans hk) (hu.holdsItems hk hn) hc' (he'.is he) hd, rfl⟩
  | descriptorsBody hk hn hc he hds =>
      obtain ⟨u, us, rfl, hu, _, hr⟩ := hr.cons
      obtain ⟨head', e', behind, hc', _, he', _, hbehind⟩ := hr.collect_cons hc
      obtain ⟨y, hfail, hy⟩ := hds.retold hbehind
      exact ⟨y, .descriptorsBody (hu.kind.trans hk) (hu.holdsItems hk hn) hc' (he'.is he) hfail, hy⟩
  | descriptors hk hn hc he hds _ ih =>
      obtain ⟨u, us, rfl, hu, _, hr⟩ := hr.cons
      obtain ⟨head', e', behind, hc', _, he', _, hbehind⟩ := hr.collect_cons hc
      obtain ⟨ds', after, hds', _, hafter⟩ := hds.retold hbehind
      obtain ⟨y, hfail, hy⟩ := ih hafter
      exact ⟨y, .descriptors (hu.kind.trans hk) (hu.holdsItems hk hn) hc' (he'.is he) hds' hfail, hy⟩
  | groupBody hk hn hc he hd _ ih =>
      obtain ⟨u, us, rfl, hu, _, hr⟩ := hr.cons
      obtain ⟨head', e', behind, hc', _, he', _, hbehind⟩ := hr.collect_cons hc
      obtain ⟨y, hfail, hy⟩ := ih hbehind
      exact ⟨y, .groupBody (hu.kind.trans hk) (hu.holdsItems hk hn) hc' (he'.is he) hd hfail, hy⟩
  | group hk hn hc he hd hbody _ ih =>
      obtain ⟨u, us, rfl, hu, _, hr⟩ := hr.cons
      obtain ⟨head', e', behind, hc', _, he', _, hbehind⟩ := hr.collect_cons hc
      obtain ⟨body', after, hbody', _, hafter⟩ := hbody.retold hbehind
      obtain ⟨y, hfail, hy⟩ := ih hafter
      exact ⟨y, .group (hu.kind.trans hk) (hu.holdsItems hk hn) hc' (he'.is he) hd hbody' hfail, hy⟩

/-! ## Stylesheets -/

theorem retold_of_bare {ts us : List Token} (h : bare ts = bare us) : Retold True ts us := by
  have hlexemes : ts.map (·.toLexeme) = us.map (·.toLexeme) := by
    rw [← Token.lexeme_bare, h, Token.lexeme_bare]
  refine ⟨(forall₂_lexeme hlexemes).imp fun t u htu => ⟨congrArg Lexeme.kind htu, fun _ => ?_⟩, fun _ => h⟩
  rw [Token.ruleName, Token.ruleName, congrArg Lexeme.text htu]

namespace Sheet

variable {x y : String}

theorem read_eq_ok_iff {sheet : Sheet} :
    read x = .ok sheet ↔ ∃ items, ItemsRead 0 (Token.ofText x) items [] ∧ ofItems items = sheet := by
  rw [read, bind_eq_ok]
  simp only [readItems_eq_ok_iff, pure, Except.pure, Except.ok.injEq]

theorem read_eq_error_iff {e : ParseError} : read x = .error e ↔ ItemsFail 0 (Token.ofText x) e := by
  rw [← takeItems_eq_error_iff, read, readItems]
  cases takeItems 0 (Token.ofText x) with
  | ok p =>
      constructor
      · intro h
        cases h
      · intro h
        cases h
  | error e' =>
      constructor
      · intro h
        cases h
        rfl
      · intro h
        cases h
        rfl

/-- Texts whose tokens differ in no more than their places and the blanks before the first are read as the same
stylesheet, or they fail with the same error at another place. -/
theorem read_of_bare (h : bare (Token.ofText x) = bare (Token.ofText y)) :
    (read x).mapError ParseError.placeless = (read y).mapError ParseError.placeless := by
  have hr := retold_of_bare h
  cases hx : read x with
  | ok sheet =>
      obtain ⟨items, hitems, rfl⟩ := read_eq_ok_iff.1 hx
      obtain ⟨items', rest, hread, hsame, hrest⟩ := hitems.retold hr
      rw [hrest.nil, hsame trivial] at hread
      rw [read_eq_ok_iff.2 ⟨items, hread, rfl⟩]
  | error e =>
      obtain ⟨e', hfail, hsame⟩ := (read_eq_error_iff.1 hx).retold hr
      rw [read_eq_error_iff.2 hfail, Except.mapError, Except.mapError, hsame]

end Sheet

end TieredStyle.Css
