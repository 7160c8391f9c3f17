import ResourcePki.Resources.Json
import ResourcePki.Text.Base64
import ResourcePki.Error

/-!
Signed resource certificates and what is asked of a signer. Encoding and signing happen elsewhere;
a signer is whatever answers a request, given all that it was asked before.
-/

namespace ResourcePki

structure CertificateTemplate where
  serial : Nat
  subjectName : String
  /-- The hexadecimal identifier of the key that is certified. -/
  subjectKey : String
  resources : ResourceSet
  validity : Validity
deriving DecidableEq, Repr, Inhabited

structure SignedCertificate extends CertificateTemplate where
  der : Bytes
deriving DecidableEq, Repr, Inhabited

instance : JsonForm SignedCertificate where
  toJson c := .obj [("serial", toJson c.serial), ("subject_name", toJson c.subjectName),
    ("subject_key", toJson c.subjectKey), ("resources", toJson c.resources),
    ("validity", toJson c.validity), ("der", toJson c.der)]
  ofJson? j := do
    let [serial, subjectName, subjectKey, resources, validity, der] ← j.slots [["serial"],
      ["subject_name"], ["subject_key"], ["resources"], ["validity"], ["der"]] | none
    return { serial := ← Json.required serial, subjectName := ← Json.required subjectName,
             subjectKey := ← Json.required subjectKey, resources := ← Json.required resources,
             validity := ← Json.required validity, der := ← Json.required der }

/-- A request for a signature with a key, and what came of it. -/
structure Signing where
  key : String
  template : CertificateTemplate
  outcome : Except Error Bytes

/-- Signs with a key, given the requests before, the last one first. -/
abbrev Signer := List Signing → String → CertificateTemplate → Except Error Bytes

end ResourcePki
