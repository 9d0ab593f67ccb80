import TieredStyle.Proofs.Style.Selector
import TieredStyle.Proofs.Style.Written

/-!
# A projected style is decoded

The rules of a projected stylesheet are told apart by their media and by their selectors, so decoding puts
the properties of each address back where they were.
-/
namespace TieredStyle
open TieredStyle.Css

namespace Breakpoint

theorem breakpointUnder_params? (b : Breakpoint) : Style.breakpointUnder b.params? = b := by
  cases h : b.params? with
  | none => cases b <;> first | rfl | cases h
  | some params => exact ofMedia_params h

end Breakpoint

namespace Style

/-- What decoding makes of a rule. -/
def overlayRule (layers : Layers) (r : Ruled) : Layers :=
  overlayAt layers (breakpointUnder r.media).key (PseudoState.ofSelector r.selector).key
    (r.body.map fun d => (d.property, d.value.text))

theorem ofSheet_ofItems (items : List Item) (id name : String) (l : Layout) :
    ofSheet (.ofItems items) id name l =
      .ok { id, name, layers := (itemRuled none 1 items).foldl overlayRule l.layers } := by
  have hskip : ∀ m id node (layers : Layers), node.kind ≠ .rule →
      collectRule (.ofItems items) m id node layers = .ok layers := by
    intro m id node layers hk
    cases node with
    | rule selector b => exact absurd rfl hk
    | stylesheet => rfl
    | block => rfl
    | atRule name params b => rfl
    | declaration d => rfl
  rw [ofSheet, foldUnderMedia_ofItems hskip]
  have hshows := @shows_ruled_ofItems items
  generalize l.layers = layers
  generalize itemRuled none 1 items = rs at hshows
  induction rs generalizing layers with
  | nil => rfl
  | cons r rs ih =>
      have hr := hshows r List.mem_cons_self
      have hcollect : collectRule (.ofItems items) r.media r.id (.rule r.selector (some (r.id + 1)))
          layers = .ok (overlayRule layers r) := by
        rw [collectRule, hr.blockOf_rule]
        simp only [bind, Except.bind, hr.declarations_rule]
        rfl
      rw [List.foldlM_cons, hcollect]
      exact ih _ fun r hr => hshows r (List.mem_cons_of_mem _ hr)

/-- The rule is decoded as the entry that it writes. -/
structure Entry.Decodes (e : Entry) (r : Ruled) : Prop where
  breakpoint : (breakpointUnder r.media).key = e.breakpoint
  state : (PseudoState.ofSelector r.selector).key = e.state
  properties : (r.body.map fun d => (d.property, d.value.text)) = e.properties.entries

theorem overlayAll_of_decodes {es : List Entry} {rs : List Ruled}
    (h : List.Forall₂ Entry.Decodes es rs) (layers : Layers) :
    rs.foldl overlayRule layers = overlayAll layers es := by
  induction h generalizing layers with
  | nil => rfl
  | cons h _ ih =>
      rw [List.foldl_cons, overlayAll, List.foldl_cons, ih, overlayRule, h.breakpoint, h.state,
        h.properties]
      rfl

theorem at?_standard (b : Breakpoint) (p : PseudoState) :
    at? Layout.standard.layers b.key p.key = some ∅ := by
  cases b <;> cases p <;> decide

/-- What a style has at a standard address comes through its entries. -/
theorem properties_overlayAll (s : Style) (b : Breakpoint) (p : PseudoState) :
    (at? (overlayAll Layout.standard.layers s.entries) b.key p.key).getD ∅ = s.properties b p := by
  rw [at?_overlayAll, at?_standard]
  exact OrderedMap.insertMany_empty (s.properties b p)

/-- Texts that read as themselves, without `!important`. -/
def Plain (es : List (String × String)) : Prop :=
  ∀ e ∈ es, readProperty e.1 = .ok e.1 ∧ readValue e.2 = .ok ⟨e.2, false⟩

theorem read_of_plain {es : List (String × String)} (h : Plain es) {e : String × String}
    (he : e ∈ es) : Declaration.read e.1 e.2 = .ok ⟨e.1, ⟨e.2, false⟩⟩ := by
  obtain ⟨hproperty, hvalue⟩ := h e he
  rw [Declaration.read, hproperty, hvalue]
  rfl

theorem eq_map_of_plain {es : List (String × String)} (h : Plain es) {ds : List Declaration}
    (hds : ReadAs es ds) : ds = es.map fun e => ⟨e.1, ⟨e.2, false⟩⟩ := by
  induction hds with
  | nil => rfl
  | cons hd _ ih =>
      cases (read_of_plain h List.mem_cons_self).symm.trans hd
      rw [List.map_cons, ← ih fun e he => h e (List.mem_cons_of_mem _ he)]

theorem map_of_plain {es : List (String × String)} (h : Plain es) {ds : List Declaration}
    (hds : ReadAs es ds) :
    (ds.map fun d => (d.property, d.value.text)) = es := by
  rw [eq_map_of_plain h hds, List.map_map]
  exact List.map_id es

theorem exists_ruleOf {selector : String} (hselector : readSelector selector = .ok selector)
    (p : PseudoState) {properties : Properties}
    (h : ∀ e ∈ properties.entries, ∃ d, Declaration.read e.1 e.2 = .ok d) :
    ∃ item, ruleOf selector p.key properties = .ok item := by
  obtain ⟨ds, hds⟩ := exists_forall₂ h
  exact ⟨_, ruleOf_eq_ok.2 ⟨_, ds, rfl, readSelector_applyTo hselector p, hds⟩⟩

/-- An entry at a standard address, with normalized texts. -/
structure Entry.Standard (e : Entry) : Prop where
  breakpoint : ∃ b : Breakpoint, b.key = e.breakpoint
  state : ∃ p : PseudoState, p.key = e.state
  texts : Plain e.properties.entries

/-- A rule for an entry at a standard address is decoded there. -/
theorem Entry.Writes.decodedAt {selector : String} {e : Entry} {r : Ruled} (h : e.Writes selector r)
    (hb : ∃ b : Breakpoint, b.key = e.breakpoint) (hp : ∃ p : PseudoState, p.key = e.state)
    (hselector : readSelector selector = .ok selector)
    (hnone : ∀ p : PseudoState, p ≠ .base → ¬ ':' :: p.key.toList <:+: selector.toList) :
    (breakpointUnder r.media).key = e.breakpoint ∧ (PseudoState.ofSelector r.selector).key = e.state := by
  obtain ⟨b, hb⟩ := hb
  obtain ⟨p, hp⟩ := hp
  constructor
  · rw [h.media, ← hb, Breakpoint.ofKey?_key, Option.bind_some, Breakpoint.breakpointUnder_params?]
  · have hread := h.selector
    rw [← hp] at hread ⊢
    rw [← Except.ok.inj ((readSelector_applyTo hselector p).symm.trans hread),
      PseudoState.ofSelector_applyTo hnone]

theorem Entry.Standard.decodes {selector : String} {e : Entry} {r : Ruled} (h : e.Standard)
    (hselector : readSelector selector = .ok selector)
    (hnone : ∀ p : PseudoState, p ≠ .base → ¬ ':' :: p.key.toList <:+: selector.toList)
    (hwrites : e.Writes selector r) : e.Decodes r := by
  obtain ⟨hbreakpoint, hstate⟩ := hwrites.decodedAt h.breakpoint h.state hselector hnone
  exact ⟨hbreakpoint, hstate, map_of_plain h.texts hwrites.body⟩

/-- Projecting a style with standard keys and normalized texts and decoding the stylesheet gives back
the properties of each address, in order. -/
theorem ofSheet_toSheet {s : Style} {selector : String}
    (hb : ∀ bp ∈ s.layers.keys, ∃ b : Breakpoint, b.key = bp)
    (hp : ∀ states ∈ s.layers.values, ∀ ps ∈ states.keys, ∃ p : PseudoState, p.key = ps)
    (htexts : ∀ properties ∈ s.addressed, ∀ e ∈ properties.entries,
      readProperty e.1 = .ok e.1 ∧ readValue e.2 = .ok ⟨e.2, false⟩)
    (hselector : readSelector selector = .ok selector)
    (hnone : ∀ p : PseudoState, p ≠ .base → ¬ ':' :: p.key.toList <:+: selector.toList)
    (id name : String) :
    ∃ sheet decoded, s.toSheet selector = .ok sheet ∧
      ofSheet sheet id name .standard = .ok decoded ∧
      ∀ b p, decoded.properties b p = s.properties b p := by
  have hstandard : ∀ e ∈ s.entries, e.Standard := by
    intro e he
    obtain ⟨hbreakpoint, haddressed, states, hstates, hstate⟩ := exists_of_mem_entries he
    exact ⟨hb e.breakpoint hbreakpoint, hp states hstates e.state hstate,
      htexts e.properties haddressed⟩
  have hitems : ∃ items, s.toItems selector = .ok items := by
    refine exists_toItems hselector fun e he => ?_
    obtain ⟨_, ⟨p, hkey⟩, htexts⟩ := hstandard e he
    rw [← hkey]
    exact exists_ruleOf hselector p fun x hx => ⟨_, read_of_plain htexts hx⟩
  obtain ⟨items, hitems⟩ := hitems
  obtain ⟨σ, hσ, hwrites⟩ := writes_toItems hitems
  cases hselector.symm.trans hσ
  have hdecodes : List.Forall₂ Entry.Decodes s.entries (itemRuled none 1 items) :=
    ((List.forall₂_and_left _ _).2 ⟨hstandard, hwrites⟩).imp fun e r h =>
      h.1.decodes hselector hnone h.2
  refine ⟨_, _, toSheet_eq_ok.2 ⟨items, hitems, rfl⟩, ofSheet_ofItems items id name .standard, ?_⟩
  intro b p
  rw [overlayAll_of_decodes hdecodes]
  exact properties_overlayAll s b p

/-- A hovered tier, under a selector with a state of its own. -/
theorem ofSheet_toSheet_hover : ∃ sheet decoded,
    ((default : Style).set "md" "hover" "color" "red").toSheet "a:visited" = .ok sheet ∧
      ofSheet sheet "id" "name" .standard = .ok decoded ∧
      ∀ b p, decoded.properties b p =
        ((default : Style).set "md" "hover" "color" "red").properties b p := by
  refine ofSheet_toSheet ?_ ?_ ?_ (by decide +kernel) ?_ "id" "name"
  · intro bp hbp
    have hkeys : ((default : Style).set "md" "hover" "color" "red").layers.keys = ["md"] := by
      decide +kernel
    rw [hkeys, List.mem_singleton] at hbp
    exact ⟨.md, hbp.symm⟩
  · intro states hstates ps hps
    have hvalues : ((default : Style).set "md" "hover" "color" "red").layers.values =
        [(∅ : States).insert "hover" ((∅ : Properties).insert "color" "red")] := by
      decide +kernel
    rw [hvalues, List.mem_singleton] at hstates
    rw [hstates] at hps
    exact ⟨.hover, (List.mem_singleton.1 hps).symm⟩
  · decide +kernel
  · intro p hp h
    rw [← Text.occurs_iff] at h
    cases p
    · exact hp rfl
    all_goals exact absurd h (by decide +kernel)

end Style
end TieredStyle
