import ResourcePki.Key.Pair

/-!
The keys of a CA, and the certificates it issues with them. A CA signs with its first current key,
if that is certified itself; a child has at most one valid certificate for each of its own keys,
so a new one takes the place of the one before.
-/

namespace ResourcePki

structure KeyRing where
  pairs : List KeyPair := []
  directory : RsyncUri
  /-- Set while a new manifest and revocation list are awaited. -/
  checkNeeded : Bool := false
  /-- It stands for a number of 64 bits, as long as it does not reach 2^64 - 1. -/
  nextSerial : Nat := 1
deriving DecidableEq, Repr, Inhabited

namespace KeyRing

def add (r : KeyRing) (k : KeyPair) : KeyRing := { r with pairs := r.pairs ++ [k] }

def find? (r : KeyRing) (ski : String) : Option KeyPair := r.pairs.find? (·.ski = ski)

/-- Changes the first key with an identifier. -/
def modifyFirst (ski : String) (f : KeyPair → KeyPair) : List KeyPair → List KeyPair
  | [] => []
  | k :: rest => if k.ski = ski then f k :: rest else k :: modifyFirst ski f rest

def modify (r : KeyRing) (ski : String) (f : KeyPair → KeyPair) : KeyRing :=
  { r with pairs := modifyFirst ski f r.pairs }

def current? (r : KeyRing) : Option KeyPair := r.pairs.find? (·.isCurrent)

def publishable (r : KeyRing) : List KeyPair := r.pairs.filter (·.isPublishable)

/-- The identifiers of the keys that should hold a certificate of the parent. -/
def activeSkis (r : KeyRing) : List String := (r.pairs.filter fun k => !k.isRevoked).map (·.ski)

def certified (r : KeyRing) : Option ResourceSet := r.current?.bind (·.certified)

def valid (r : KeyRing) : List OutgoingCertificate := r.pairs.flatMap (·.valid)

/-- The first valid certificate that a child holds for its key. -/
def validChild (r : KeyRing) (child : CaId) (subjectKey : String) : Option OutgoingCertificate :=
  r.pairs.findSome? (·.validFor (.child child) subjectKey)

/-- Revokes the valid certificates of a child, for one key of it or for all. -/
def revokeChild (r : KeyRing) (child : CaId) (subjectKey : Option String) (now : Time) : KeyRing :=
  { r with pairs := r.pairs.map (·.revokeFor (.child child) subjectKey now) }

/-- The number of certificates that `revokeChild` revokes. -/
def countChild (r : KeyRing) (child : CaId) (subjectKey : Option String) : Nat :=
  r.pairs.foldl (fun n k => n + k.countFor (.child child) subjectKey) 0

/-- Takes the certificates from all keys, as when a CA holds nothing any more. -/
def clearIncoming (r : KeyRing) : KeyRing := { r with pairs := r.pairs.map (·.clearIncoming) }

structure ChildRequest where
  child : CaIdentity
  subjectKey : String
  resources : ResourceSet
  validity : Validity
deriving DecidableEq, Repr

def ChildRequest.template (q : ChildRequest) (serial : Nat) : CertificateTemplate where
  serial := serial
  subjectName := q.child.name
  subjectKey := q.subjectKey
  resources := q.resources
  validity := q.validity

def signingKey? (r : KeyRing) : Option String :=
  (r.current?.filter (·.incoming.isSome)).map (·.ski)

/-- The certificate that a signature makes out of a template, in its place in the repository. -/
def place (r : KeyRing) (q : ChildRequest) (template : CertificateTemplate) (der : Bytes) :
    Except Error OutgoingCertificate :=
  OutgoingCertificate.issue { template with der } (.child q.child.id) false
    (some s!"{q.subjectKey}.cer") (some r.directory)

/-- Stores a certificate under the signing key, in place of the one the child has for its key. -/
def replaceChild (r : KeyRing) (signingKey : String) (c : OutgoingCertificate) (child : CaId)
    (now : Time) : KeyRing :=
  (r.revokeChild child (some c.certificate.subjectKey) now).modify signingKey (·.addOutgoing c)

/--
Issues a certificate to a child. The serial number is used up once the signer is asked; nothing
else changes unless the certificate was signed and has its place in the repository. Then the one
that the child has for its key is revoked, and the key that signed is looked up to store it.
-/
def issueChild (r : KeyRing) (q : ChildRequest) (signer : Signer) (now : Time)
    (signings : List Signing) : Except Error IncomingCertificate × KeyRing × List Signing :=
  match r.signingKey? with
  | none => (.error (.illegalState (.noCertifiedKey q.child.name)), r, signings)
  | some key =>
    let template := q.template r.nextSerial
    let next := { r with nextSerial := r.nextSerial + 1 }
    let outcome := signer signings key template
    let signings := ⟨key, template, outcome⟩ :: signings
    match outcome with
    | .error e => (.error e, next, signings)
    | .ok der =>
      match r.place q template der with
      | .error e => (.error e, next, signings)
      | .ok c =>
        match c.publicationUri with
        | none => (.error (.illegalState (.other "no publication uri")), next, signings)
        | some publicationUri =>
          let revoked := next.revokeChild q.child.id (some q.subjectKey) now
          match revoked.find? key with
          | none => (.error (.keyUnknown key), revoked, signings)
          | some _ =>
            (.ok { certificate := c.certificate, publicationUri, inherited := ∅ },
              next.replaceChild key c q.child.id now, signings)

/-- Expires what the keys of a list issued and is past its validity, and counts it. -/
def expirePairs (now : Time) : List KeyPair → Except Error (Nat × List KeyPair)
  | [] => .ok (0, [])
  | k :: rest => do
    let (m, k) ← k.expireOutgoing now
    let (n, rest) ← expirePairs now rest
    return (m + n, k :: rest)

def expireOutgoing (r : KeyRing) (now : Time) : Except Error (Nat × KeyRing) := do
  let (n, pairs) ← expirePairs now r.pairs
  return (n, { r with pairs })

instance : JsonForm KeyRing where
  toJson r := .obj [("key_pairs", toJson r.pairs), ("publication_directory", toJson r.directory),
    ("manifest_and_crl_check_needed", toJson r.checkNeeded), ("next_serial", toJson r.nextSerial)]
  ofJson? j := do
    let [pairs, directory, checkNeeded, nextSerial] ← j.slots [["key_pairs"],
      ["publication_directory"], ["manifest_and_crl_check_needed"], ["next_serial"]] | none
    return { pairs := ← Json.orElse pairs [], directory := ← Json.required directory,
             checkNeeded := ← Json.orElse checkNeeded false,
             nextSerial := ← Json.required nextSerial }

end KeyRing

end ResourcePki
