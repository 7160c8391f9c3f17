import ResourcePki.Publishing.Repositories
import ResourcePki.Text.Base64
import ResourcePki.Xml.Reader

/-! The documents that publishers exchange with a repository (RFC 8183), as XML. -/

namespace ResourcePki

/-- The namespace of the documents, without the slash that may end it. -/
def setupNamespace : String := "http://www.hactrn.net/uris/rpki/rpki-setup"

def isSetupNamespace (uri : String) : Bool := uri = setupNamespace || uri = setupNamespace ++ "/"

def isAscii (s : String) : Bool := s.toList.all (·.toNat < 128)

namespace PublisherRequest

open Text

/-- The base64 text of the only text in some nodes, in its usual form. -/
def certificateText? (nodes : List XmlNode) : Option String := do
  let [.text cs] := nodes.filter (! Xml.isFiller ·) | none
  let der ← Base64.decode? (cs.filter (! Xml.isSpace ·))
  return .ofList (Base64.encode der)

def ofXml? (xml : String) : Option PublisherRequest := do
  let .element "publisher_request" attributes children ← Xml.root? xml | none
  let namespaces := (attributes.filter (·.1 = "xmlns")).map (·.2)
  let attributes := attributes.filter (·.1 ≠ "xmlns")
  let known := ["version", "publisher_handle", "tag"]
  if !namespaces.all isSetupNamespace || !attributes.all (known.contains ·.1) ||
      !attributes.all (isAscii ·.2) then none
  if !(attributes.lookup "version").all (· = "1") then none
  let name ← PublisherName.ofText? (← attributes.lookup "publisher_handle")
  let [.element "publisher_bpki_ta" _ text] := children.filter (! Xml.isFiller ·) | none
  return { idCert := ← certificateText? text, name, tag := attributes.lookup "tag" }

/-- The request in a document, if its identity certificate is valid. -/
def ofDocument (isIdentity : String → Bool) (xml : String) : Except Error PublisherRequest := do
  match ofXml? xml with
  | none => throw (.invalidPublisherRequest .malformed)
  | some request => do
    request.validate isIdentity
    return request

end PublisherRequest

def RepositoryResponse.toXml (r : RepositoryResponse) : String :=
  let optional (name : String) (value : Option String) :=
    (value.map (Xml.attributeText name)).getD ""
  String.join ["<repository_response", Xml.attributeText "xmlns" (setupNamespace ++ "/"),
    Xml.attributeText "version" "1", Xml.attributeText "publisher_handle" r.name.text,
    Xml.attributeText "service_uri" r.service.text, Xml.attributeText "sia_base" r.info.base.text,
    optional "rrdp_notification_uri" (r.info.notification.map (·.text)), optional "tag" r.tag,
    ">\n  <repository_bpki_ta>\n    ", r.idCert,
    "\n  </repository_bpki_ta>\n</repository_response>"]

namespace PublisherRepositories

variable {ε : Type} (desk : PublisherRepositories ε)

/-- Sets up a repository on the request in a document. -/
def provisionXml (name : CaName) (xml : String) (s : PublishingState ε) :
    Except Error PublisherHandle × PublishingState ε :=
  match PublisherRequest.ofDocument desk.isIdentity xml with
  | .error e => (.error e, s)
  | .ok request => desk.provision name request s

end PublisherRepositories

end ResourcePki
