import ResourcePki.Authority.Identity
import ResourcePki.Resources.Json
import ResourcePki.Time.Text

/-! What is asked of the trust anchor, which signs away from this system. -/

namespace ResourcePki

structure SigningRequest where
  requestingCa : CaName
  subject : CaIdentity
  signingKey : String
  resources : ResourceSet
deriving DecidableEq, Repr

instance : JsonForm SigningRequest where
  toJson r := .obj [("requesting_ca", toJson r.requestingCa), ("subject", toJson r.subject),
    ("signing_key", toJson r.signingKey), ("resources", toJson r.resources)]
  ofJson? j := do
    let [requestingCa, subject, signingKey, resources] ← j.slots
      [["requesting_ca"], ["subject"], ["signing_key"], ["resources"]] | none
    return ⟨← Json.required requestingCa, ← Json.required subject, ← Json.required signingKey,
      ← Json.required resources⟩

structure TrustAnchorRequest where
  id : Uuid
  created : Time
  requests : List SigningRequest
deriving DecidableEq, Repr

instance : JsonForm TrustAnchorRequest where
  toJson r := .obj [("request_id", toJson r.id), ("created", toJson r.created),
    ("requests", toJson r.requests)]
  ofJson? j := do
    let [id, created, requests] ← j.slots [["request_id"], ["created"], ["requests"]] | none
    return ⟨← Json.required id, ← Json.required created, ← Json.required requests⟩

/-- One request for each of some children, all signed with one key. -/
def TrustAnchorRequest.ofChildren (id : Uuid) (created : Time) (ca : CaName) (signingKey : String)
    (resources : ResourceSet) (children : List CaIdentity) : TrustAnchorRequest :=
  { id, created, requests := children.map fun child => ⟨ca, child, signingKey, resources⟩ }

end ResourcePki
