import TieredStyle.Decimal.Text
import TieredStyle.Json.Numeral
import TieredStyle.Text.Quoted

/-! Why a text is not the JSON of a style. -/
namespace TieredStyle.Style

/-- What stands where something else is asked for. -/
inductive Found
  | null
  | boolean (b : Bool)
  | number (n : Json.Number)
  | text (s : String)
  | sequence
  | map
deriving DecidableEq, Inhabited

/-- Numbers are written out from `1e-5` on and below `1e+16`, and every exponent has a sign. -/
def numberFormat : Decimal.Format := ⟨-5, 16, "+"⟩

example : numberFormat.decimal 15 15 = "1.5e+16" := by decide +kernel
example : numberFormat.decimal 1 15 = "1000000000000000.0" := by decide +kernel
example : numberFormat.decimal 1 (-7) = "1e-7" := by decide +kernel

def Found.message : Found → String
  | .null => "null"
  | .boolean b => "boolean `" ++ toString b ++ "`"
  | .number (.natural n) => "integer `" ++ toString n ++ "`"
  | .number (.negative n) => "integer `-" ++ toString n ++ "`"
  | .number (.binary negative x) => "floating point `" ++ numberFormat.text negative x ++ "`"
  | .text s => "string " ++ Text.quoted s
  | .sequence => "sequence"
  | .map => "map"

inductive Wanted
  | style | text | version | map
deriving DecidableEq, Inhabited

def Wanted.message : Wanted → String
  | .style => "struct StyleToken"
  | .text => "a string"
  | .version => "u64"
  | .map => "a map"

inductive Field
  | id | name | version | layers
deriving DecidableEq, Inhabited

def Field.key : Field → String
  | .id => "id"
  | .name => "name"
  | .version => "state"
  | .layers => "contents"

def Field.ofKey? (k : String) : Option Field := [id, name, version, layers].find? (·.key = k)

/-- The first thing that is wrong with a text, from left to right. -/
inductive ReadError
  /-- The text up to here is the start of no JSON, or holds a number out of range. -/
  | notJson
  | wrongType (found : Found) (wanted : Wanted)
  /-- The version is the negative of a number. -/
  | negative (n : Nat)
  /-- An array with fewer elements than a style has fields. -/
  | incomplete
  /-- An object without its layers. -/
  | missingLayers
  | repeated (field : Field)
deriving DecidableEq, Inhabited

def ReadError.message : ReadError → String
  | .notJson => "invalid token JSON"
  | .wrongType found wanted =>
    "malformed style token: invalid type: " ++ found.message ++ ", expected " ++ wanted.message
  | .negative n =>
    "malformed style token: invalid value: integer `-" ++ toString n ++ "`, expected " ++
      Wanted.version.message
  | .incomplete =>
    "malformed style token: invalid length 3, expected " ++ Wanted.style.message ++
      " with 4 elements"
  | .missingLayers => "malformed style token: missing field `" ++ Field.layers.key ++ "`"
  | .repeated field => "malformed style token: duplicate field `" ++ field.key ++ "`"

end TieredStyle.Style
