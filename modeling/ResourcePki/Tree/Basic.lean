import ResourcePki.Authority.Basic

/-!
The tree of CAs. Every CA is stored under its number and names its parent and its children by
theirs. Trees are read from files, so nothing is taken for granted about these links: a tree is
only data, and numbers that lead nowhere are passed over.
-/

namespace ResourcePki

structure CaTree where
  cas : SortedMap CaId CertificateAuthority := ∅
  /-- Numbers below this one have been given out. It stands for a number of 64 bits, as long as no
  number in use reaches 2^64 - 1. -/
  nextId : Nat := 0
deriving DecidableEq, Repr, Inhabited

namespace CaTree

def get? (t : CaTree) (id : CaId) : Option CertificateAuthority := t.cas.get? id

def contains (t : CaTree) (id : CaId) : Bool := t.cas.contains id

def toList (t : CaTree) : List CertificateAuthority := t.cas.values

def size (t : CaTree) : Nat := t.cas.size

def findByName? (t : CaTree) (name : CaName) : Option CertificateAuthority :=
  t.toList.find? (·.name = name)

/-- Puts a CA under a number, with no regard to what is there. -/
def set (t : CaTree) (id : CaId) (ca : CertificateAuthority) : CaTree :=
  { t with cas := t.cas.insert id ca }

/-- The first number above those of all CAs; CAs count from one. -/
def firstFree (t : CaTree) : Nat := (t.cas.keys.getLast?.map (· + 1)).getD 1

/-- Gives out a number that no CA has or had. -/
def allocate (t : CaTree) : CaId × CaTree :=
  let id := max t.nextId t.firstFree
  (id, { t with nextId := id + 1 })

def linkChild (t : CaTree) (parent : Option CaId) (child : CaId) : Except Error CaTree :=
  match parent with
  | none => .ok t
  | some id =>
    match t.get? id with
    | some p => .ok (t.set id (p.addChild child))
    | none => .error (.caUnknown id)

/-- Adds a CA with a new number and a new name, and links it to its parent. -/
def insert (t : CaTree) (ca : CertificateAuthority) : Except Error CaTree :=
  if t.contains ca.id ∨ (t.findByName? ca.name).isSome then .error (.caDuplicate ca.name)
  else do
    let t ← t.linkChild ca.parent ca.id
    return { t with nextId := max t.nextId (ca.id + 1) }.set ca.id ca

def childrenOf (t : CaTree) (id : CaId) : List CaId :=
  (t.get? id).elim [] fun ca => ca.children.toList

/-- Some CAs and what is below them, level by level; the fuel is the number of levels. On a tree with
a cycle a queue of CAs to visit never gets empty, so a search with one does not end; this one stops
when the fuel is used up. -/
def levels (t : CaTree) : Nat → List CaId → List CaId
  | 0, _ => []
  | fuel + 1, ids =>
    let present := ids.filter t.contains
    present ++ t.levels fuel (present.flatMap t.childrenOf)

/-- Everything below a CA, level by level. Without cycles no level is deeper than there are CAs; on a
tree with a cycle the search stops after as many levels. -/
def descendants (t : CaTree) (id : CaId) : List CaId := t.levels t.size (t.childrenOf id)

def descendantsOf (t : CaTree) (name : CaName) : Except Error (List CaIdentity) :=
  match t.findByName? name with
  | none => .error (.caNameUnknown name)
  | some ca => .ok ((t.descendants ca.id).filterMap fun id => (t.get? id).map (·.identity))

/-- The JSON form of the map from numbers; of entries with one number the last counts. -/
instance : JsonForm (SortedMap CaId CertificateAuthority) where
  toJson m := .obj (m.entries.map fun e => (toString e.1, toJson e.2))
  ofJson?
    | .obj es => do
      return .ofList (← es.mapM fun e => do return (← Json.naturalKey? e.1, ← ofJson? e.2))
    | _ => none

instance : JsonForm CaTree where
  toJson t := .obj [("cas", toJson t.cas), ("next_id", toJson t.nextId)]
  ofJson? j := do
    let [cas, nextId] ← j.slots [["cas"], ["next_id"]] | none
    return ⟨← Json.required cas, ← Json.required nextId⟩

end CaTree

end ResourcePki
