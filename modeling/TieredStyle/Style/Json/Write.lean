import TieredStyle.Json.Write
import TieredStyle.Style.Diff

/-! Styles and differences as JSON, in the order of their entries. -/
namespace TieredStyle

/-- A map as an object. -/
def OrderedMap.json {α : Type} (value : α → String) (m : OrderedMap α) : String :=
  Json.object (m.entries.map fun (k, v) => (k, value v))

def Layers.json (l : Layers) : String :=
  OrderedMap.json (OrderedMap.json (OrderedMap.json Json.text)) l

def Style.json (s : Style) : String :=
  Json.object [("id", Json.text s.id), ("name", Json.text s.name),
    ("state", toString s.version.toNat), ("contents", Layers.json s.layers)]

def Change.json (c : Change) : String :=
  Json.object [("from", Json.text c.old), ("to", Json.text c.new)]

def Diff.json (d : Diff) : String :=
  Json.object [("added", Layers.json d.added), ("removed", Layers.json d.removed),
    ("changed", OrderedMap.json (OrderedMap.json (OrderedMap.json Change.json)) d.changed)]

end TieredStyle
