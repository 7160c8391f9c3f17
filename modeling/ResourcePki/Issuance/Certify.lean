import ResourcePki.Issuance.Services
import ResourcePki.Issuance.Timing

/-!
Bringing the certificates that a parent issued to a child in line with what the child may be
certified for: those that are missing, about to end or for other resources are issued anew, and
all are revoked when nothing is left to certify.
-/

namespace ResourcePki

structure CertificationTerms where
  /-- The number under which the child is stored. -/
  child : CaId
  resources : ResourceSet
  now : Time
  validity : Validity
  /-- Certificates that end before this are issued anew. -/
  renewBefore : Time
  sign : Signer

/-- The keys of a parent and a child of it while their certificates are brought in line. -/
structure Certification where
  parentKeys : KeyRing
  child : CertificateAuthority
  signings : List Signing

namespace Certification

/-- Whether the child manages the key here and has no certificate for it. -/
def lacksIncoming (c : Certification) (ski : String) : Bool :=
  (c.child.keys?.bind (·.find? ski)).any (·.incoming.isNone)

/-- Whether a certificate of the parent will do for some time. -/
def serves (terms : CertificationTerms) (cert : OutgoingCertificate) : Bool :=
  cert.resources.equivalent terms.resources && !decide (cert.notAfter < terms.renewBefore)

def needsCertificate (terms : CertificationTerms) (c : Certification) (ski : String) : Bool :=
  !(c.parentKeys.validChild terms.child ski).any (serves terms) || c.lacksIncoming ski

/-- Hands a new certificate to the child, if it manages the key here. -/
def deliver (c : Certification) (ski : String) (cert : IncomingCertificate) : Certification :=
  { c with child := c.child.modifyKeys (·.modify ski (·.receive cert)) }

def issue (terms : CertificationTerms) (c : Certification) (ski : String) :
    Except Error Unit × Certification :=
  match c.parentKeys.issueChild ⟨c.child.identity, ski, terms.resources, terms.validity⟩
      terms.sign terms.now c.signings with
  | (.ok cert, parentKeys, signings) => (.ok (), { c with parentKeys, signings }.deliver ski cert)
  | (.error e, parentKeys, signings) => (.error e, { c with parentKeys, signings })

/-- Goes through keys of the child up to the first failure; says whether anything was issued. -/
def certify (terms : CertificationTerms) : List String → Certification →
    Except Error Bool × Certification
  | [], c => (.ok false, c)
  | ski :: rest, c =>
    if c.needsCertificate terms ski then
      match c.issue terms ski with
      | (.ok (), c) =>
        let (r, c) := certify terms rest c
        (r.map fun _ => true, c)
      | (.error e, c) => (.error e, c)
    else certify terms rest c

/-- Whether there is anything that `withdraw` would take away. -/
def isHeld (c : Certification) : Bool :=
  0 < c.parentKeys.countChild c.child.id none ||
    (c.child.keys?.any (·.pairs.any (·.incoming.isSome)))

/-- Takes all certificates from a child that holds nothing any more. -/
def withdraw (now : Time) (c : Certification) : Certification :=
  { c with parentKeys := c.parentKeys.revokeChild c.child.id none now
           child := c.child.modifyKeys (·.clearIncoming) }

/-- Brings all certificates in line; says whether anything changed. -/
def align (terms : CertificationTerms) (c : Certification) : Except Error Bool × Certification :=
  if terms.resources.isEmpty then (.ok c.isHeld, c.withdraw terms.now)
  else c.certify terms c.child.subjectKeys

end Certification

/-- Aligns the certificates between a parent, whose keys must be managed here, and a child. -/
def alignPair (terms : CertificationTerms) (j : Journal) (parent child : CertificateAuthority) :
    (Except Error Bool × Journal) × CertificateAuthority × CertificateAuthority :=
  match parent.requireKeys with
  | .error e => ((.error e, j), parent, child)
  | .ok parentKeys =>
    let (r, c) := Certification.align terms ⟨parentKeys, child, j.signings⟩
    ((r, { j with signings := c.signings }), parent.withKeys c.parentKeys, c.child)

end ResourcePki
