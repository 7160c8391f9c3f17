import ResourcePki.Certificate.Incoming
import ResourcePki.Certificate.Outgoing

/-!
Key pairs. A key starts out new, is pending while its certificate is awaited, current once it is
certified, old after a newer key took over, and revoked at the end.
-/

namespace ResourcePki

inductive KeyStatus where
  | new
  | pending
  | current
  | old
  | revoked
deriving DecidableEq, Repr

namespace KeyStatus

def names : List (String × KeyStatus) :=
  [("new", new), ("pending", pending), ("current", current), ("old", old), ("revoked", revoked)]

def text : KeyStatus → String
  | new => "new"
  | pending => "pending"
  | current => "current"
  | old => "old"
  | revoked => "revoked"

instance : JsonForm KeyStatus := ⟨Json.nameOf names, Json.named? names⟩

end KeyStatus

structure KeyPair where
  /-- The hexadecimal identifier of the key. -/
  ski : String
  status : KeyStatus := .new
  /-- The certificate that the parent issued for the key. -/
  incoming : Option IncomingCertificate := none
  /-- Every certificate ever issued with the key, in order. -/
  outgoing : List OutgoingCertificate := []
  /-- Signed objects without a certificate of their own. -/
  published : List PublishedObject := []
deriving DecidableEq, Repr, Inhabited

namespace KeyPair

def isCurrent (k : KeyPair) : Bool := k.status = .current

def isRevoked (k : KeyPair) : Bool := k.status = .revoked

def isPublishable (k : KeyPair) : Bool :=
  (k.status = .pending || k.status = .current || k.status = .old) && k.incoming.isSome

def certified (k : KeyPair) : Option ResourceSet := k.incoming.map (·.certified)

def requestCertificate (k : KeyPair) : KeyPair :=
  if k.status = .new then { k with status := .pending } else k

def activate (k : KeyPair) : KeyPair :=
  if k.status = .new ∨ k.status = .pending then { k with status := .current } else k

def deactivate (k : KeyPair) : KeyPair :=
  if k.status = .current then { k with status := .old } else k

/-- Takes a certificate from the parent; a key that awaited one becomes current. -/
def receive (k : KeyPair) (c : IncomingCertificate) : KeyPair :=
  { k with incoming := some c }.activate

def clearIncoming (k : KeyPair) : KeyPair := { k with incoming := none }

def addOutgoing (k : KeyPair) (c : OutgoingCertificate) : KeyPair :=
  { k with outgoing := k.outgoing ++ [c] }

def addPublished (k : KeyPair) (o : PublishedObject) : KeyPair :=
  { k with published := k.published ++ [o] }

def valid (k : KeyPair) : List OutgoingCertificate := k.outgoing.filter (·.isValid)

/-- The first valid certificate that the subject holds for its key. -/
def validFor (k : KeyPair) (subject : Subject) (subjectKey : String) :
    Option OutgoingCertificate :=
  k.valid.find? fun c => c.subject = subject && c.certificate.subjectKey = subjectKey

/-- Whether a certificate is valid and held by the subject, for one key if that is given. -/
def concerns (subject : Subject) (subjectKey : Option String) (c : OutgoingCertificate) : Bool :=
  c.subject = subject && subjectKey.all (c.certificate.subjectKey = ·) && c.isValid

/-- Revokes the valid certificates of a subject, for one key of it or for all. -/
def revokeFor (k : KeyPair) (subject : Subject) (subjectKey : Option String) (now : Time) :
    KeyPair :=
  { k with outgoing := k.outgoing.map fun c =>
      if concerns subject subjectKey c then c.revoke now else c }

/-- The number of certificates that `revokeFor` revokes. -/
def countFor (k : KeyPair) (subject : Subject) (subjectKey : Option String) : Nat :=
  k.outgoing.countP (concerns subject subjectKey)

/-- Expires the valid certificates whose validity ended before `now`; also counts them. -/
def expireAll (now : Time) :
    List OutgoingCertificate → Except Error (Nat × List OutgoingCertificate)
  | [] => .ok (0, [])
  | c :: rest =>
    if c.isValid ∧ c.notAfter < now then do
      let c ← c.expire now
      let (n, rest) ← expireAll now rest
      return (n + 1, c :: rest)
    else do
      let (n, rest) ← expireAll now rest
      return (n, c :: rest)

def expireOutgoing (k : KeyPair) (now : Time) : Except Error (Nat × KeyPair) := do
  let (n, outgoing) ← expireAll now k.outgoing
  return (n, { k with outgoing })

/-- The end of the key: all that it signed is withdrawn. -/
def revoke (k : KeyPair) : KeyPair :=
  { k with status := .revoked, outgoing := k.outgoing.map (·.withdraw),
           published := k.published.map (·.withdraw) }

instance : JsonForm KeyPair where
  toJson k := .obj ([("encoded_ski", toJson k.ski), ("status", toJson k.status)] ++
    Json.entry? "incoming" k.incoming ++
    [("outgoing", toJson k.outgoing), ("published", toJson k.published)])
  ofJson? j := do
    let [ski, status, incoming, outgoing, published] ← j.slots
      [["encoded_ski"], ["status"], ["incoming"], ["outgoing"], ["published"]] | none
    return { ski := ← Json.required ski, status := ← Json.required status,
             incoming := ← Json.orElse incoming none, outgoing := ← Json.orElse outgoing [],
             published := ← Json.orElse published [] }

end KeyPair

end ResourcePki
