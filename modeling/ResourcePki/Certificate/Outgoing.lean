import ResourcePki.Certificate.Published

/-!
Certificates as the CA that issued them keeps them. A certificate starts out current and ends up
revoked or expired; beside that, its object in the repository has a life of its own.
-/

namespace ResourcePki

inductive OutgoingStatus where
  | current
  | revoked
  | expired
deriving DecidableEq, Repr

namespace OutgoingStatus

def names : List (String × OutgoingStatus) :=
  [("current", current), ("revoked", revoked), ("expired", expired)]

instance : JsonForm OutgoingStatus := ⟨Json.nameOf names, Json.named? names⟩

end OutgoingStatus

/-- Signed objects that carry a certificate of their own. -/
inductive ObjectKind where
  | manifest
  | roa
  | aspa
deriving DecidableEq, Repr

namespace ObjectKind

def names : List (String × ObjectKind) := [("manifest", manifest), ("roa", roa), ("aspa", aspa)]

def text : ObjectKind → String
  | manifest => "Manifest"
  | roa => "Roa"
  | aspa => "Aspa"

instance : JsonForm ObjectKind := ⟨Json.nameOf names, Json.named? names⟩

end ObjectKind

inductive Subject where
  | child (id : CaId)
  | object (kind : ObjectKind)
deriving DecidableEq, Repr

namespace Subject

def isChild : Subject → Bool
  | child _ => true
  | object _ => false

def text : Subject → String
  | child id => s!"child CA {id}"
  | object kind => s!"{kind.text} EE"

instance : JsonForm Subject where
  toJson
    | child id => .obj [("child_ca", toJson id)]
    | object kind => .obj [("rpki_object", toJson kind)]
  ofJson?
    | .obj [("child_ca", j)] => (ofJson? j).map child
    | .obj [("rpki_object", j)] => (ofJson? j).map object
    | _ => none

end Subject

structure OutgoingCertificate where
  certificate : SignedCertificate
  subject : Subject
  status : OutgoingStatus
  /-- Published inside another object, not on its own. -/
  embedded : Bool
  revocationTime : Option Time := none
  object : Option PublishedObject := none
  publicationUri : Option RsyncUri := none
deriving DecidableEq, Repr

namespace OutgoingCertificate

/-- A current certificate that is part of another object. -/
def embed (certificate : SignedCertificate) (subject : Subject) : OutgoingCertificate :=
  { certificate, subject, status := .current, embedded := true }

/-- A current certificate to be published under a name in a directory. -/
def publish (certificate : SignedCertificate) (subject : Subject) (filename : String)
    (directory : RsyncUri) : Except Error OutgoingCertificate := do
  let object : PublishedObject :=
    { filename, directory, content := certificate.der, validity := certificate.validity }
  let uri ← object.uri
  return { certificate, subject, status := .current, embedded := false, object := some object,
           publicationUri := some uri }

/-- A current certificate; unless it is embedded, it needs a name and a directory. -/
def issue (certificate : SignedCertificate) (subject : Subject) (embedded : Bool)
    (filename : Option String) (directory : Option RsyncUri) :
    Except Error OutgoingCertificate :=
  if embedded then .ok (embed certificate subject)
  else
    match filename, directory with
    | some filename, some directory => publish certificate subject filename directory
    | _, _ => .error (.illegalState .noPlace)

def resources (c : OutgoingCertificate) : ResourceSet := c.certificate.resources

def notAfter (c : OutgoingCertificate) : Time := c.certificate.validity.notAfter

def isCurrent (c : OutgoingCertificate) : Bool := c.status = .current

def isRevoked (c : OutgoingCertificate) : Bool := c.status = .revoked

def isExpired (c : OutgoingCertificate) : Bool := c.status = .expired

def isValid (c : OutgoingCertificate) : Bool := !c.isRevoked && !c.isExpired

def isPublishable (c : OutgoingCertificate) : Bool := c.object.any (·.isPublished)

def withdraw (c : OutgoingCertificate) : OutgoingCertificate :=
  { c with object := c.object.map (·.withdraw) }

def markPublished (c : OutgoingCertificate) : OutgoingCertificate :=
  { c with object := c.object.map (·.markPublished) }

/-- Revokes a certificate that is valid; does nothing to any other. -/
def revoke (c : OutgoingCertificate) (now : Time) : OutgoingCertificate :=
  if c.isValid then { c.withdraw with status := .revoked, revocationTime := some now } else c

/-- Marks a certificate as expired; fails while its validity has not ended. -/
def expire (c : OutgoingCertificate) (now : Time) : Except Error OutgoingCertificate :=
  if now ≤ c.notAfter then .error (.illegalState (.stillValid c.certificate.serial c.notAfter))
  else if c.isExpired then .ok c
  else .ok { c.withdraw with status := .expired }

instance : JsonForm OutgoingCertificate where
  toJson c := .obj ([("certificate", toJson c.certificate), ("subject", toJson c.subject),
      ("status", toJson c.status), ("embedded", toJson c.embedded)] ++
    Json.entry? "revocation_time" c.revocationTime ++
    Json.entry? "published_object" c.object ++
    Json.entry? "publication_uri" c.publicationUri)
  ofJson? j := do
    let [certificate, subject, status, embedded, revocationTime, object, uri] ← j.slots
      [["certificate"], ["subject"], ["status"], ["embedded"], ["revocation_time"],
        ["published_object"], ["publication_uri"]] | none
    return { certificate := ← Json.required certificate, subject := ← Json.required subject,
             status := ← Json.required status, embedded := ← Json.required embedded,
             revocationTime := ← Json.orElse revocationTime none,
             object := ← Json.orElse object none, publicationUri := ← Json.orElse uri none }

end OutgoingCertificate

end ResourcePki
