import TieredStyle.Proofs.Tree.Overwritten
import TieredStyle.Proofs.Tree.Retrieved
import TieredStyle.Proofs.Tree.Shaped

/-!
# When an update succeeds

On a stylesheet that has been read an update succeeds if all of its texts can be read, with one exception: a new
rule has no place under media whose first at-rule is a statement, since a statement has no block.
-/
namespace TieredStyle.Css

/-! ## The texts of an update -/

/-- All texts of an update can be read. -/
structure Accepted (property value : String) (t : Target) : Prop where
  property : ∃ p, readProperty property = .ok p
  value : ∃ v, readValue value = .ok v
  selector : ∃ x, readSelector (PseudoState.select t.selector t.state) = .ok x
  media : ∀ params ∈ t.media, ∃ x, readParams params = .ok x

/-- Why the first text of an update that cannot be read cannot. -/
inductive Refuses (property value : String) (t : Target) (e : ParseError) : Prop
  | property : readProperty property = .error e → Refuses property value t e
  | value {p : String} : readProperty property = .ok p → readValue value = .error e →
      Refuses property value t e
  | selector {p : String} {v : Value} : readProperty property = .ok p → readValue value = .ok v →
      readSelector (PseudoState.select t.selector t.state) = .error e → Refuses property value t e
  | media {p x params : String} {v : Value} : readProperty property = .ok p → readValue value = .ok v →
      readSelector (PseudoState.select t.selector t.state) = .ok x → t.media = some params →
      readParams params = .error e → Refuses property value t e

theorem reading_eq_error {α : Type} {x : Except ParseError α} {e : Error} :
    reading x = .error e ↔ ∃ pe, x = .error pe ∧ e = .parse pe := by
  cases x <;> simp [reading, Except.mapError, eq_comm]

theorem shaping_eq_error {α : Type} {x : Except ShapeError α} {e : Error} :
    shaping x = .error e ↔ ∃ se, x = .error se ∧ e = .shape se := by
  cases x <;> simp [shaping, Except.mapError, eq_comm]

section

variable {property value : String} {t : Target} {e : ParseError}

theorem mapM_readParams_eq_error {media : Option String} :
    media.mapM readParams = .error e ↔ ∃ params, media = some params ∧ readParams params = .error e := by
  cases media with
  | none => simp [pure, Except.pure]
  | some params => cases h : readParams params <;> simp [h]

theorem refuses_iff : Refuses property value t e ↔ Declaration.read property value = .error e ∨
    ∃ d, Declaration.read property value = .ok d ∧ t.read = .error e := by
  constructor
  · intro h
    cases h with
    | property hp => exact .inl (bind_eq_error.2 (.inl hp))
    | value hp hv => exact .inl (bind_eq_error.2 (.inr ⟨_, hp, bind_eq_error.2 (.inl hv)⟩))
    | selector hp hv hx =>
        exact .inr ⟨⟨_, _⟩, Declaration.read_eq_ok.2 ⟨hp, hv⟩, bind_eq_error.2 (.inl hx)⟩
    | media hp hv hx ht hm =>
        refine .inr ⟨⟨_, _⟩, Declaration.read_eq_ok.2 ⟨hp, hv⟩, bind_eq_error.2 (.inr ⟨_, hx, ?_⟩)⟩
        exact bind_eq_error.2 (.inl (mapM_readParams_eq_error.2 ⟨_, ht, hm⟩))
  · rintro (h | ⟨d, hd, h⟩)
    · rcases bind_eq_error.1 h with hp | ⟨p, hp, h⟩
      · exact .property hp
      · rcases bind_eq_error.1 h with hv | ⟨_, _, h⟩
        · exact .value hp hv
        · cases h
    · obtain ⟨hp, hv⟩ := Declaration.read_eq_ok.1 hd
      rcases bind_eq_error.1 h with hx | ⟨x, hx, h⟩
      · exact .selector hp hv hx
      · rcases bind_eq_error.1 h with hm | ⟨_, _, h⟩
        · obtain ⟨params, ht, hm⟩ := mapM_readParams_eq_error.1 hm
          exact .media hp hv hx ht hm
        · cases h

theorem accepted_iff : Accepted property value t ↔ ∃ d selector media,
    Declaration.read property value = .ok d ∧ t.read = .ok (selector, media) := by
  constructor
  · rintro ⟨⟨p, hp⟩, ⟨v, hv⟩, ⟨x, hx⟩, hmedia⟩
    cases hm : t.media.mapM readParams with
    | ok media => exact ⟨⟨p, v⟩, x, media, Declaration.read_eq_ok.2 ⟨hp, hv⟩, Target.read_eq_ok.2 ⟨hx, hm⟩⟩
    | error e =>
        obtain ⟨params, ht, he⟩ := mapM_readParams_eq_error.1 hm
        obtain ⟨y, hy⟩ := hmedia params ht
        cases he.symm.trans hy
  · rintro ⟨d, selector, media, hd, ht⟩
    obtain ⟨hp, hv⟩ := Declaration.read_eq_ok.1 hd
    obtain ⟨hx, hm⟩ := Target.read_eq_ok.1 ht
    refine ⟨⟨_, hp⟩, ⟨_, hv⟩, ⟨_, hx⟩, fun params hparams => ?_⟩
    cases hy : readParams params with
    | ok y => exact ⟨y, rfl⟩
    | error e => cases hm.symm.trans (mapM_readParams_eq_error.2 ⟨params, hparams, hy⟩)

end

namespace Sheet

variable {s : Sheet} {selector params property value : String} {media : Option String} {t : Target}

/-! ## A rule without a place -/

/-- There is no rule that is meant, and the at-rule that should take a new one is a statement. -/
def StrandsRule (s : Sheet) (selector params : String) : Prop :=
  s.findRule? selector (some params) = .ok none ∧
    ∃ m name, s.topMedia? params = some m ∧ s.node? m = some (.atRule name params none)

/-- What the update of a target needs is a rule that has no place. -/
def Strands (s : Sheet) (t : Target) : Prop :=
  ∃ selector params, t.read = .ok (selector, some params) ∧ s.StrandsRule selector params

theorem put_of_strandsRule (h : s.StrandsRule selector params) (d : Declaration) :
    s.put selector (some params) d = .error (.missingBlock .atRule) := by
  obtain ⟨hnone, m, name, htop, hnode⟩ := h
  have hblock : s.blockOf m = .error (.missingBlock .atRule) := by
    simp [blockOf, block?, hnode, Node.block?, Node.kind]
  simp only [put_of_none hnone, declareRule_eq, mediaContainer, htop, hblock]
  rfl

/-! ## All others have one -/

theorem Coherent.node?_of_findRule? (hs : s.Coherent) {r : Nat}
    (h : s.findRule? selector media = .ok (some r)) : ∃ b, s.node? r = some (.rule selector b) := by
  rw [findRule?_eq (hs.whole shows_tree)] at h
  obtain ⟨v, hv, rfl⟩ := Option.map_eq_some_iff.1 (Except.ok.inj h)
  have hmeant := List.find?_some hv
  rw [node?_of_mem_visits (List.mem_of_find?_eq_some hv)]
  cases hnode : v.node <;> simp_all [Visit.meant]

theorem exists_declareIn {b : Nat} (hblock : s.node? b = some .block) (d : Declaration) :
    ∃ s', s.declareIn b d = .ok s' := by
  cases hfind : (s.children b).find? (s.declares d.property) with
  | some c =>
      obtain ⟨_, s', _, _, h⟩ := declareIn_replace hfind
      exact ⟨s', h⟩
  | none =>
      obtain ⟨_, h⟩ := declareIn_push hblock hfind
      exact ⟨_, h⟩

/-- Each rule that the grammar admits has a block, and an at-rule that takes rules has one unless it is a
statement. -/
theorem Shaped.exists_put (hshaped : s.Shaped) (hs : s.Coherent) (hroot : s.node? Sheet.root = some .stylesheet)
    (h : ∀ params, media = some params → ¬ s.StrandsRule selector params) (d : Declaration) :
    ∃ s', s.put selector media d = .ok s' := by
  cases hfound : meantIn selector media none s.tree.events with
  | some r =>
      have hrule : s.findRule? selector media = .ok (some r) := by
        rw [findRule?_eq (hs.whole shows_tree), hfound]
      obtain ⟨b, hnode⟩ := hs.node?_of_findRule? hrule
      obtain ⟨_, block, _, hblock, _⟩ := hshaped.rule r selector b hnode
      rw [put_of_found hrule hblock]
      exact exists_declareIn (node?_of_blockOf hblock).2 d
  | none =>
      have hnone : s.findRule? selector media = .ok none := by
        rw [findRule?_eq (hs.whole shows_tree), hfound]
      cases media with
      | none =>
          have hcontainer : s.mediaContainer none = .ok (Sheet.root, s) := rfl
          obtain ⟨_, hput⟩ := put_of_container hcontainer hroot rfl hnone d
          exact ⟨_, hput⟩
      | some params =>
          cases htop : s.topMedia? params with
          | none =>
              obtain ⟨_, hdeclare⟩ := declareRule_of_media htop hroot rfl selector d
              exact ⟨_, (put_of_none hnone d).trans hdeclare⟩
          | some m =>
              obtain ⟨_, node, hnode, hparams⟩ := of_topMedia? htop
              obtain ⟨name, b, rfl⟩ : ∃ name b, node = .atRule name params b := by
                cases node <;> simp_all [Node.media?]
              cases b with
              | none => exact absurd ⟨hnone, m, name, htop, hnode⟩ (h params rfl)
              | some b =>
                  have hclaim : s.claim? m = some b := by
                    rw [claim?, hnode]
                    rfl
                  have hblock := hs.blockOf_eq hclaim
                  obtain ⟨_, hput⟩ := put_of_container (Takes.media htop hblock).mediaContainer
                    (node?_of_blockOf hblock).2 rfl hnone d
                  exact ⟨_, hput⟩

/-! ## The outcome of an update -/

/-- An update fails with the first text that cannot be read, or else with the shape of the stylesheet. -/
theorem update_eq_error {e : Error} : s.update property value t = .error e ↔
    (∃ pe, Refuses property value t pe ∧ e = .parse pe) ∨
      ∃ d selector media se, Declaration.read property value = .ok d ∧ t.read = .ok (selector, media) ∧
        s.put selector media (d.marked t.important) = .error se ∧ e = .shape se := by
  simp only [update_eq, bind_eq_error, reading_eq_error, reading_eq_ok, shaping_eq_error, refuses_iff]
  constructor
  · rintro (⟨pe, hd, he⟩ | ⟨d, hd, ⟨pe, ht, he⟩ | ⟨⟨selector, media⟩, ht, se, hput, he⟩⟩)
    · exact .inl ⟨pe, .inl hd, he⟩
    · exact .inl ⟨pe, .inr ⟨d, hd, ht⟩, he⟩
    · exact .inr ⟨d, selector, media, se, hd, ht, hput, he⟩
  · rintro (⟨pe, hd | ⟨d, hd, ht⟩, he⟩ | ⟨d, selector, media, se, hd, ht, hput, he⟩)
    · exact .inl ⟨pe, hd, he⟩
    · exact .inr ⟨d, hd, .inl ⟨pe, ht, he⟩⟩
    · exact .inr ⟨d, hd, .inr ⟨(selector, media), ht, se, hput, he⟩⟩

theorem Shaped.put_of_not_strands (hshaped : s.Shaped) (hs : s.Coherent)
    (hroot : s.node? Sheet.root = some .stylesheet) (hstrands : ¬ s.Strands t)
    (ht : t.read = .ok (selector, media)) (d : Declaration) : ∃ s', s.put selector media d = .ok s' := by
  refine hshaped.exists_put hs hroot (fun params hmedia hrule => ?_) d
  subst hmedia
  exact hstrands ⟨selector, params, ht, hrule⟩

theorem put_of_strands (hstrands : s.Strands t) (ht : t.read = .ok (selector, media)) (d : Declaration) :
    s.put selector media d = .error (.missingBlock .atRule) := by
  obtain ⟨selector', params, ht', hrule⟩ := hstrands
  cases ht.symm.trans ht'
  exact put_of_strandsRule hrule d

/-- On a stylesheet that has been read an update succeeds exactly if its texts can be read and its rule has a
place. Else the first of the texts that cannot be read is the error, and without one the missing block is. -/
theorem update_outcome {css : String} (hs : read css = .ok s) :
    ((∃ s', s.update property value t = .ok s') ↔ Accepted property value t ∧ ¬ s.Strands t) ∧
      ∀ e, s.update property value t = .error e ↔
        (∃ pe, Refuses property value t pe ∧ e = .parse pe) ∨
          Accepted property value t ∧ s.Strands t ∧ e = .shape (.missingBlock .atRule) := by
  have hcoherent : s.Coherent := (Initial.read hs).coherent
  have hshaped : s.Shaped := shaped_read hs
  have hroot : s.node? Sheet.root = some .stylesheet := by
    obtain ⟨items, _, h⟩ := bind_eq_ok.1 hs
    cases h
    rfl
  refine ⟨?_, fun e => update_eq_error.trans (or_congr_right ?_)⟩
  · simp only [update_eq_ok, accepted_iff]
    constructor
    · rintro ⟨s', d, selector, media, hd, ht, hput⟩
      refine ⟨⟨d, selector, media, hd, ht⟩, fun hstrands => ?_⟩
      cases (put_of_strands hstrands ht _).symm.trans hput
    · rintro ⟨⟨d, selector, media, hd, ht⟩, hstrands⟩
      obtain ⟨s', hput⟩ := hshaped.put_of_not_strands hcoherent hroot hstrands ht (d.marked t.important)
      exact ⟨s', d, selector, media, hd, ht, hput⟩
  · rw [accepted_iff]
    constructor
    · rintro ⟨d, selector, media, se, hd, ht, hput, rfl⟩
      by_cases hstrands : s.Strands t
      · cases hput.symm.trans (put_of_strands hstrands ht _)
        exact ⟨⟨d, selector, media, hd, ht⟩, hstrands, rfl⟩
      · obtain ⟨s', hput'⟩ := hshaped.put_of_not_strands hcoherent hroot hstrands ht (d.marked t.important)
        cases hput.symm.trans hput'
    · rintro ⟨⟨d, selector, media, hd, ht⟩, hstrands, rfl⟩
      exact ⟨d, selector, media, _, hd, ht, put_of_strands hstrands ht _, rfl⟩

/-- The first of two at-rules with the same parameters has a block, and so the rule has a place there. -/
theorem update_outcome_media : ∃ s, read "@media m{}@media m;" = .ok s ∧
    Accepted "color" "red" { selector := ".a", media := some "m" } ∧
      ¬ s.Strands { selector := ".a", media := some "m" } := by
  have hread : read "@media m{}@media m;" =
      .ok (.ofItems [.group "media" "m" [], .statement "media" "m"]) := by decide +kernel
  refine ⟨_, hread, (update_outcome hread).1.1 ?_⟩
  cases h : (ofItems [.group "media" "m" [], .statement "media" "m"]).update "color" "red"
      { selector := ".a", media := some "m" } with
  | ok s' => exact ⟨s', rfl⟩
  | error e =>
      have hok : ((ofItems [.group "media" "m" [], .statement "media" "m"]).update "color" "red"
          { selector := ".a", media := some "m" }).isOk = true := by decide +kernel
      rw [h] at hok
      cases hok

/-- All texts can be read, and yet the rule has no place. -/
theorem exists_accepted_not_updated : ∃ s, read "@media m;" = .ok s ∧
    Accepted "color" "red" { selector := ".a", media := some "m" } ∧
      s.update "color" "red" { selector := ".a", media := some "m" } =
        .error (.shape (.missingBlock .atRule)) := by
  have hread : read "@media m;" = .ok (.ofItems [.statement "media" "m"]) := by decide +kernel
  have hd : Declaration.read "color" "red" = .ok ⟨"color", ⟨"red", false⟩⟩ := by decide +kernel
  have ht : Target.read { selector := ".a", media := some "m" } = .ok (".a", some "m") := by decide +kernel
  have hrule : (ofItems [.statement "media" "m"]).StrandsRule ".a" "m" :=
    ⟨by decide +kernel, 1, "media", by decide +kernel, by decide +kernel⟩
  refine ⟨_, hread, accepted_iff.2 ⟨_, _, _, hd, ht⟩, ?_⟩
  exact update_eq_error.2 (.inr ⟨_, _, _, _, hd, ht, put_of_strandsRule hrule _, rfl⟩)

end Sheet
end TieredStyle.Css
