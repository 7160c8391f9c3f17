import ResourcePki.Json.Value

/-!
TOML values. Programs that keep their settings in TOML and exchange them as JSON read both in one
way: `toJson` gives the JSON value that stands for a TOML value.
-/

namespace ResourcePki

inductive TomlValue where
  | str (s : String)
  | int (n : Int)
  /-- A number with a fraction or an exponent, infinity or none at all, as it was written. -/
  | real (text : List Char)
  | bool (b : Bool)
  /-- A date, a time of day or both, as it was written. -/
  | datetime (text : List Char)
  | arr (items : List TomlValue)
  | table (entries : List (String × TomlValue))
deriving Inhabited, Repr

namespace TomlValue

mutual

/-- A date has no counterpart in JSON; it becomes an object, which no setting is. -/
def toJson : TomlValue → Json
  | str s => .str s
  | int n => .int n
  | real text => .real text
  | bool b => .bool b
  | datetime text => .obj [("datetime", .str (.ofList text))]
  | arr items => .arr (itemsJson items)
  | table entries => .obj (entriesJson entries)

def itemsJson : List TomlValue → List Json
  | [] => []
  | v :: rest => v.toJson :: itemsJson rest

def entriesJson : List (String × TomlValue) → List (String × Json)
  | [] => []
  | (key, v) :: rest => (key, v.toJson) :: entriesJson rest

end

end TomlValue

end ResourcePki
