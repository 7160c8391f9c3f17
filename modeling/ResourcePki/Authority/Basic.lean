import ResourcePki.Authority.Request
import ResourcePki.Key.Ring

/-!
Certificate authorities, the nodes of the tree. The keys of most of them are managed by this
system; a non-hosted CA keeps its own and has only public keys and publisher repositories here.
-/

namespace ResourcePki

inductive CaKind where
  /-- The root, which holds all resources by the trust anchor's word. -/
  | allResources (keys : KeyRing) (pending : Option TrustAnchorRequest)
  | production (keys : KeyRing)
  | hosted (keys : KeyRing)
  | nonHosted (publicKeys : List String)
      (publishers : SortedMap PublisherHandle PublisherRepository)
deriving DecidableEq, Repr

namespace CaKind

def type : CaKind → CaType
  | allResources _ _ => .allResources
  | production _ => .production
  | hosted _ => .hosted
  | nonHosted _ _ => .nonHosted

def keys? : CaKind → Option KeyRing
  | allResources keys _ => some keys
  | production keys => some keys
  | hosted keys => some keys
  | nonHosted _ _ => none

def withKeys (keys : KeyRing) : CaKind → CaKind
  | allResources _ pending => allResources keys pending
  | production _ => production keys
  | hosted _ => hosted keys
  | kind => kind

/-- The JSON form of a map from handles; of entries with one handle the last counts. -/
instance : JsonForm (SortedMap PublisherHandle PublisherRepository) where
  toJson m := .obj (m.entries.map fun e => (e.1.text, toJson e.2))
  ofJson?
    | .obj es => do
      return .ofList (← es.mapM fun e => do return (← Uuid.ofText? e.1, ← ofJson? e.2))
    | _ => none

instance : JsonForm CaKind where
  toJson
    | allResources keys pending => .withTag "type" "all_resources" <| .obj <|
        ("keys", toJson keys) :: Json.entry? "upstream_request" pending
    | production keys => (toJson keys).withTag "type" "production"
    | hosted keys => (toJson keys).withTag "type" "hosted"
    | nonHosted publicKeys publishers => .withTag "type" "non_hosted" <| .obj
        [("public_keys", toJson publicKeys), ("publisher_repositories", toJson publishers)]
  ofJson? j := do
    let (type, j) ← j.tagged? "type"
    match ← CaType.names.lookup type with
    | .allResources => do
      let [keys, pending] ← j.slots [["keys"], ["upstream_request"]] | none
      return allResources (← Json.required keys) (← Json.orElse pending none)
    | .production => (ofJson? j).map production
    | .hosted => (ofJson? j).map hosted
    | .nonHosted => do
      let [publicKeys, publishers] ← j.slots [["public_keys"], ["publisher_repositories"]] | none
      return nonHosted (← Json.orElse publicKeys []) (← Json.orElse publishers ∅)

end CaKind

structure CertificateAuthority where
  id : CaId
  name : CaName
  parent : Option CaId := none
  children : CaIds := ∅
  kind : CaKind
deriving DecidableEq, Repr

namespace CertificateAuthority

def identity (ca : CertificateAuthority) : CaIdentity := ⟨ca.id, ca.name⟩

def type (ca : CertificateAuthority) : CaType := ca.kind.type

def addChild (ca : CertificateAuthority) (child : CaId) : CertificateAuthority :=
  { ca with children := ca.children.add child }

def keys? (ca : CertificateAuthority) : Option KeyRing := ca.kind.keys?

def isManaged (ca : CertificateAuthority) : Bool := ca.keys?.isSome

def withKeys (ca : CertificateAuthority) (keys : KeyRing) : CertificateAuthority :=
  { ca with kind := ca.kind.withKeys keys }

/-- Changes the keys of a managed CA; does nothing to any other. -/
def modifyKeys (ca : CertificateAuthority) (f : KeyRing → KeyRing) : CertificateAuthority :=
  match ca.keys? with
  | some keys => ca.withKeys (f keys)
  | none => ca

def requireKeys (ca : CertificateAuthority) : Except Error KeyRing :=
  match ca.keys? with
  | some keys => .ok keys
  | none => .error (.caNotManaged ca.name)

def publishers? (ca : CertificateAuthority) :
    Option (SortedMap PublisherHandle PublisherRepository) :=
  match ca.kind with
  | .nonHosted _ publishers => some publishers
  | _ => none

def publishable (ca : CertificateAuthority) : List KeyPair :=
  (ca.keys?.map (·.publishable)).getD []

def valid (ca : CertificateAuthority) : List OutgoingCertificate := (ca.keys?.map (·.valid)).getD []

/-- What the parent certified the CA for. -/
def certified (ca : CertificateAuthority) : Option ResourceSet := ca.keys?.bind (·.certified)

/-- The keys for which the CA should hold a certificate of its parent. -/
def subjectKeys (ca : CertificateAuthority) : List String :=
  match ca.kind with
  | .nonHosted publicKeys _ => publicKeys
  | _ => (ca.keys?.map (·.activeSkis)).getD []

instance : JsonForm CertificateAuthority where
  toJson ca := .obj ([("id", toJson ca.id), ("name", toJson ca.name)] ++
    Json.entry? "parent" ca.parent ++
    [("children", toJson ca.children), ("kind", toJson ca.kind)])
  ofJson? j := do
    let [id, name, parent, children, kind] ← j.slots
      [["id"], ["name"], ["parent"], ["children"], ["kind"]] | none
    return { id := ← Json.required id, name := ← Json.required name,
             parent := ← Json.orElse parent none, children := ← Json.orElse children ∅,
             kind := ← Json.required kind }

end CertificateAuthority

end ResourcePki
