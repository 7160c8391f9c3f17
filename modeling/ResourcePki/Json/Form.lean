import ResourcePki.Json.Reader

/-!
Types that are written as JSON. A record is an object; its reader takes each field under any of
its names, ignores what it does not know and refuses a field given twice. It also takes an array
with the values of the fields in order. An optional value is written as `null` or left out.
-/

namespace ResourcePki

class JsonForm (α : Type) where
  toJson : α → Json
  ofJson? : Json → Option α

export JsonForm (toJson ofJson?)

namespace Json

/-- The values given for the fields of a record, each field with the names it may have. -/
def slots (fields : List (List String)) : Json → Option (List (Option Json))
  | .obj es => fields.mapM fun names =>
    match es.filter fun e => names.contains e.1 with
    | [] => some none
    | [(_, v)] => some (some v)
    | _ => none
  | .arr items =>
    if items.length ≤ fields.length then
      some (items.map some ++ List.replicate (fields.length - items.length) none)
    else none
  | _ => none

def required {α : Type} [JsonForm α] (slot : Option Json) : Option α := slot.bind ofJson?

/-- A field with a value to take when it is left out. -/
def orElse {α : Type} [JsonForm α] (slot : Option Json) (default : α) : Option α :=
  match slot with
  | none => some default
  | some j => ofJson? j

/-- The entry of an optional field, which is left out when there is no value. -/
def entry? {α : Type} [JsonForm α] (name : String) (value : Option α) : List (String × Json) :=
  value.toList.map fun v => (name, toJson v)

/-- The value that a name stands for; a name may also be the only key of an object, with `null`. -/
def named? {α : Type} (names : List (String × α)) : Json → Option α
  | .str s => names.lookup s
  | .obj [(s, .null)] => names.lookup s
  | _ => none

def nameOf {α : Type} [DecidableEq α] (names : List (String × α)) (a : α) : Json :=
  .str ((names.find? fun e => e.2 = a).elim "" (·.1))

/-- Takes the tag off a record that says by a tag which of several kinds it is. -/
def tagged? (tag : String) : Json → Option (String × Json)
  | .obj es =>
    match es.filter (·.1 = tag) with
    | [(_, .str kind)] => some (kind, .obj (es.filter (·.1 ≠ tag)))
    | _ => none
  | .arr (.str kind :: rest) => some (kind, .arr rest)
  | _ => none

def withTag (tag kind : String) : Json → Json
  | .obj es => .obj ((tag, .str kind) :: es)
  | j => j

/-- Numbers of 64 bits without a sign. -/
def natural? : Json → Option Nat
  | .int n => if 0 ≤ n ∧ n < UInt64.size then some n.toNat else none
  | _ => none

/-- Numbers of 64 bits with a sign. -/
def integer? : Json → Option Int
  | .int n => if Int64.minValue.toInt ≤ n ∧ n ≤ Int64.maxValue.toInt then some n else none
  | _ => none

/-- The number that the name of an entry stands for: decimal digits without a zero in front. -/
def naturalKey? (key : String) : Option Nat :=
  match key.toList with
  | '0' :: _ :: _ => none
  | cs => if cs.all Char.isDigit then (Text.numeral? 10 cs).filter (· < UInt64.size) else none

end Json

instance : JsonForm Json := ⟨id, some⟩

instance : JsonForm Nat := ⟨fun n => .int n, Json.natural?⟩

instance : JsonForm Int := ⟨.int, Json.integer?⟩

instance : JsonForm Bool := ⟨.bool, fun | .bool b => some b | _ => none⟩

instance : JsonForm String := ⟨.str, fun | .str s => some s | _ => none⟩

instance {α : Type} [JsonForm α] : JsonForm (Option α) where
  toJson | none => .null | some a => toJson a
  ofJson? | .null => some none | j => (ofJson? j).map some

instance {α : Type} [JsonForm α] : JsonForm (List α) where
  toJson l := .arr (l.map toJson)
  ofJson? | .arr items => items.mapM ofJson? | _ => none

namespace Json

/-- The value of a field of a record; a field that is left out reads as `null`. -/
def field? {α : Type} [JsonForm α] (j : Json) (name : String) : Option α :=
  ofJson? ((j.get? name).getD .null)

/-- A text field, empty when it is left out. -/
def textOf (j : Json) (name : String) : String := (j.field? name).getD ""

end Json

end ResourcePki
