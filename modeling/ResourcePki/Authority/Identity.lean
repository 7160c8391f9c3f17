import ResourcePki.Publication.Uuid
import ResourcePki.SortedMap

/-! What certificate authorities (CAs) and the publishers among them are known by. -/

namespace ResourcePki

/-- The number of a CA in the tree; it never changes. -/
abbrev CaId := Nat

/-- The principal name of a CA, such as `CN=Production CA`. -/
abbrev CaName := String

structure CaIdentity where
  id : CaId
  name : CaName
deriving DecidableEq, Repr, Inhabited

instance : JsonForm CaIdentity where
  toJson i := .obj [("id", toJson i.id), ("name", toJson i.name)]
  ofJson? j := do
    let [id, name] ← j.slots [["id"], ["name"]] | none
    return ⟨← Json.required id, ← Json.required name⟩

def CaIdentity.text (i : CaIdentity) : String := s!"{i.name} ({i.id})"

inductive CaType where
  | allResources
  | production
  | hosted
  | nonHosted
deriving DecidableEq, Repr

namespace CaType

def names : List (String × CaType) :=
  [("all_resources", allResources), ("production", production), ("hosted", hosted),
    ("non_hosted", nonHosted)]

def text : CaType → String
  | allResources => "all-resources"
  | production => "production"
  | hosted => "hosted"
  | nonHosted => "non-hosted"

instance : JsonForm CaType := ⟨Json.nameOf names, Json.named? names⟩

end CaType

/-- What a publisher repository of a non-hosted CA is known by. -/
abbrev PublisherHandle := Uuid

instance : Numbered Uuid where
  number := Uuid.value
  number_inj {a b} h := by cases a; cases b; simp_all

abbrev CaIds := SortedMap CaId Unit

namespace CaIds

def toList (s : CaIds) : List CaId := s.keys

def add (s : CaIds) (id : CaId) : CaIds := s.insert id ()

def ofIds (l : List CaId) : CaIds := l.foldl add ∅

instance : JsonForm CaIds where
  toJson s := toJson s.toList
  ofJson? j := (ofJson? j).map ofIds

end CaIds

end ResourcePki
