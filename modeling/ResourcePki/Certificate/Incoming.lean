import ResourcePki.Certificate.Signed

/-! Certificates as a parent hands them to a child, and as the child keeps them. -/

namespace ResourcePki

structure IncomingCertificate where
  certificate : SignedCertificate
  publicationUri : RsyncUri
  /-- What the child holds through the issuing chain without it being on the certificate. -/
  inherited : ResourceSet
deriving DecidableEq, Repr

namespace IncomingCertificate

def own (c : IncomingCertificate) : ResourceSet := c.certificate.resources

def certified (c : IncomingCertificate) : ResourceSet := c.inherited.union c.certificate.resources

def notAfter (c : IncomingCertificate) : Time := c.certificate.validity.notAfter

instance : JsonForm IncomingCertificate where
  toJson c := .obj [("certificate", toJson c.certificate),
    ("publication_uri", toJson c.publicationUri), ("inherited_resources", toJson c.inherited)]
  ofJson? j := do
    let [certificate, uri, inherited] ← j.slots
      [["certificate"], ["publication_uri"], ["inherited_resources"]] | none
    return ⟨← Json.required certificate, ← Json.required uri, ← Json.required inherited⟩

end IncomingCertificate

end ResourcePki
