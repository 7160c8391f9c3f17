import ResourcePki.Issuance.Services
import ResourcePki.Resources.Json

/-! A resource registry that is kept in memory. An empty set counts as no entry when looked up. -/

namespace ResourcePki

structure ResourceRegistry where
  /-- What is listed for each name; a name is listed once. -/
  entries : List (CaName × ResourceSet) := []
deriving DecidableEq, Repr, Inhabited

namespace ResourceRegistry

def remove (r : ResourceRegistry) (name : CaName) : ResourceRegistry :=
  ⟨r.entries.filter (·.1 ≠ name)⟩

def set (r : ResourceRegistry) (name : CaName) (resources : ResourceSet) : ResourceRegistry :=
  ⟨(name, resources) :: (r.remove name).entries⟩

def isEmpty (r : ResourceRegistry) : Bool := r.entries.isEmpty

def lookup (r : ResourceRegistry) : ResourceLookup := fun ca =>
  .ok ((r.entries.lookup ca.name).filter (! ·.isEmpty))

/-- Fails if nothing at all is listed: to go by that would revoke every certificate. -/
def verifyPresent (r : ResourceRegistry) : Except Error Unit :=
  if r.isEmpty then .error .resourceCacheEmpty else .ok ()

end ResourceRegistry

instance : JsonForm ResourceRegistry where
  toJson r := .obj (r.entries.map fun e => (e.1, toJson e.2))
  ofJson?
    | .obj es => es.foldlM (fun r e => (ofJson? e.2).map (r.set e.1)) {}
    | _ => none

end ResourcePki
