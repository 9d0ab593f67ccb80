import TieredStyle.Proofs.Style.Combined
import TieredStyle.Proofs.Style.RoundTrip
import TieredStyle.Proofs.Tree.Located

/-!
# Decoding as setting what is located

Decoding puts the declarations of a rule over its address at once, when the walk comes to the rule. The same
style comes of setting, one after the other, the declarations that a search for all of them finds.
-/
namespace TieredStyle.Style
open TieredStyle.Css

/-- Whether a layout has an address. -/
def Layout.Has (l : Layout) (bp ps : String) : Prop := bp ∈ l.breakpoints ∧ ps ∈ l.states

instance (l : Layout) (bp ps : String) : Decidable (l.Has bp ps) :=
  inferInstanceAs (Decidable (_ ∧ _))

/-- Sets a declaration at the address that it counts for, if the layout has this one. -/
def file (l : Layout) (s : Style) (x : Located) : Style :=
  if l.Has (breakpointUnder x.media).key x.state.key then
    s.set (breakpointUnder x.media).key x.state.key x.declaration.property x.declaration.value.text
  else s

/-! ## Setting as overlaying -/

/-- Layers that have the addresses of a layout and no others. -/
def Spans (l : Layout) (layers : Layers) : Prop :=
  ∀ bp ps, (at? layers bp ps).isSome = true ↔ l.Has bp ps

theorem spans_layers (l : Layout) : Spans l l.layers := by
  intro bp ps
  rw [at?_layers]
  exact Option.isSome_ite

theorem Spans.overlayAt {l : Layout} {layers : Layers} (h : Spans l layers) (bp ps : String)
    (es : List (String × String)) : Spans l (Style.overlayAt layers bp ps es) := by
  intro bp' ps'
  rw [at?_overlayAt, ← h bp' ps']
  split
  next heq => rw [heq.1, heq.2, Option.isSome_map]
  next => rfl

theorem overlayAt_append (layers : Layers) (bp ps : String) (es es' : List (String × String)) :
    overlayAt layers bp ps (es ++ es') = overlayAt (overlayAt layers bp ps es) bp ps es' := by
  rw [overlayAt, overlayAt, overlayAt, OrderedMap.modify_modify]
  refine OrderedMap.modify_congr fun states _ => ?_
  rw [OrderedMap.modify_modify]
  exact OrderedMap.modify_congr fun properties _ => OrderedMap.insertMany_append ..

/-- Nothing is put over an address that is not there. -/
theorem overlayAt_of_at?_eq_none {layers : Layers} {bp ps : String} (h : at? layers bp ps = none)
    (es : List (String × String)) : overlayAt layers bp ps es = layers := by
  refine OrderedMap.modify_eq_self fun states hstates => OrderedMap.modify_eq_self fun properties hps => ?_
  rw [at?, hstates, Option.bind_some, hps] at h
  cases h

/-- At an address that is there, putting one property over it sets that property. -/
theorem layers_set {s : Style} {bp ps : String} {properties : Properties}
    (h : at? s.layers bp ps = some properties) (p v : String) :
    (s.set bp ps p v).layers = overlayAt s.layers bp ps [(p, v)] := by
  obtain ⟨states, hstates, hproperties⟩ := Option.bind_eq_some_iff.1 h
  refine (OrderedMap.alter_eq_modify (OrderedMap.mem_keys_iff.2 ⟨states, hstates⟩) _).trans ?_
  refine OrderedMap.modify_congr fun states' hstates' => ?_
  cases hstates.symm.trans hstates'
  exact OrderedMap.alter_eq_modify (OrderedMap.mem_keys_iff.2 ⟨properties, hproperties⟩) _

/-- Puts a declaration over the address that it counts for. -/
def overlayLocated (layers : Layers) (x : Located) : Layers :=
  overlayAt layers (breakpointUnder x.media).key x.state.key
    [(x.declaration.property, x.declaration.value.text)]

theorem file_eq {l : Layout} {s : Style} (h : Spans l s.layers) (x : Located) :
    file l s x = { s with layers := overlayLocated s.layers x } := by
  have hspans := h (breakpointUnder x.media).key x.state.key
  rw [file]
  split
  next hhas =>
    obtain ⟨properties, hat⟩ := Option.isSome_iff_exists.1 (hspans.2 hhas)
    rw [overlayLocated, ← layers_set hat]
    rfl
  next hhas =>
    have hnone := Option.not_isSome_iff_eq_none.1 fun hsome => hhas (hspans.1 hsome)
    rw [overlayLocated, overlayAt_of_at?_eq_none hnone]

theorem foldl_file {l : Layout} (xs : List Located) {s : Style} (h : Spans l s.layers) :
    xs.foldl (file l) s = { s with layers := xs.foldl overlayLocated s.layers } := by
  induction xs generalizing s with
  | nil => rfl
  | cons x xs ih =>
      rw [List.foldl_cons, file_eq h, ih (h.overlayAt _ _ _)]
      rfl

/-! ## Rules as what is located in them -/

theorem overlayRule_eq (layers : Layers) (r : Ruled) :
    overlayRule layers r = r.located.foldl overlayLocated layers := by
  rw [overlayRule, Ruled.located, List.foldl_map]
  induction r.body generalizing layers with
  | nil => exact overlayAt_nil ..
  | cons d ds ih =>
      rw [List.map_cons, ← List.singleton_append, overlayAt_append, ih, List.foldl_cons]
      rfl

/-- A stylesheet is decoded to what setting its declarations gives, in the order in which a search without
a filter finds them. -/
theorem ofSheet_eq_foldl_file {css : String} {s : Sheet} (h : Sheet.read css = .ok s) (id name : String)
    (l : Layout) : ∃ found, s.locate {} = .ok found ∧
      ofSheet s id name l = .ok (found.foldl (file l) (ofLayout id name l)) := by
  obtain ⟨items, _, hs⟩ := bind_eq_ok.1 h
  cases hs
  have hall : ∀ x : Located, ({} : Filter).admits x = true := fun _ => rfl
  refine ⟨_, Sheet.locate_ofItems items rfl, ?_⟩
  rw [ofSheet_ofItems, List.filter_eq_self.2 fun x _ => hall x, foldl_file _ (spans_layers l),
    List.foldl_flatMap]
  refine congrArg (fun layers => Except.ok { id, name, layers : Style }) ?_
  exact List.foldl_ext _ _ _ fun layers r _ => overlayRule_eq layers r

/-- A rule after an inner `@media` counts for all widths, descriptors count nowhere, and a value that comes
again takes the place of the first. -/
theorem ofSheet_eq_foldl_file_media : ∃ s found, Sheet.read
      "@media (max-width:992px)\x7b@media x\x7b\x7da:hover\x7bx:y\x7d\x7d@page\x7bx:y\x7da\x7bx:y;x:z\x7d" = .ok s ∧
      s.locate {} = .ok found ∧ found.length = 3 ∧
      ofSheet s "id" "name" .standard =
        .ok (found.foldl (file .standard) (ofLayout "id" "name" .standard)) := by
  have hread : Sheet.read
      "@media (max-width:992px)\x7b@media x\x7b\x7da:hover\x7bx:y\x7d\x7d@page\x7bx:y\x7da\x7bx:y;x:z\x7d" =
        .ok (.ofItems [.group "media" "(max-width:992px)"
          [.group "media" "x" [], .rule "a:hover" [⟨"x", ⟨"y", false⟩⟩]],
          .descriptors "page" "" [⟨"x", ⟨"y", false⟩⟩],
          .rule "a" [⟨"x", ⟨"y", false⟩⟩, ⟨"x", ⟨"z", false⟩⟩]]) := by
    decide +kernel
  obtain ⟨found, hfound, hdecoded⟩ := ofSheet_eq_foldl_file hread "id" "name" .standard
  refine ⟨_, found, hread, hfound, ?_, hdecoded⟩
  rw [Sheet.locate_ofItems _ rfl] at hfound
  cases hfound
  decide +kernel

end TieredStyle.Style
