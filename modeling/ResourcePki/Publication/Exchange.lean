import ResourcePki.Publication.Uri

/-!
What a publisher sends to have a repository set up for it, and what it gets back: the two
documents of the RFC 8183 exchange.
-/

namespace ResourcePki

/-- Publishers call themselves by one to 255 letters, digits, hyphens, underscores and slashes. -/
def isPublisherName (s : String) : Bool :=
  let cs := s.toList
  1 ≤ cs.length && cs.length ≤ 255 &&
    cs.all fun c => c.isAlphanum || c = '-' || c = '_' || c = '/' || c = '\\'

structure PublisherName where
  text : String
deriving DecidableEq, Repr, Inhabited

def PublisherName.ofText? (s : String) : Option PublisherName :=
  if isPublisherName s then some ⟨s⟩ else none

instance : JsonForm PublisherName where
  toJson p := .str p.text
  ofJson? | .str s => PublisherName.ofText? s | _ => none

/-- A request to publish. The name is informative only; handles are given out by this system. -/
structure PublisherRequest where
  /-- The identity certificate, in base64. -/
  idCert : String
  name : PublisherName
  tag : Option String := none
deriving DecidableEq, Repr, Inhabited

instance : JsonForm PublisherRequest where
  toJson r := .obj [("id_cert", toJson r.idCert), ("publisher_handle", toJson r.name),
    ("tag", toJson r.tag)]
  ofJson? j := do
    let [idCert, name, tag] ← j.slots [["id_cert"], ["publisher_handle"], ["tag"]] | none
    return ⟨← Json.required idCert, ← Json.required name, ← Json.orElse tag none⟩

/-- Where a publisher sends its updates; plain HTTP is taken as it is. -/
structure ServiceUri where
  text : String
deriving DecidableEq, Repr, Inhabited

instance : JsonForm ServiceUri where
  toJson u := .str u.text
  ofJson?
    | .str s =>
      if (Text.stripAnyCase? "http://".toList s.toList).isSome then some ⟨s⟩
      else (HttpsUri.ofText s).toOption.map fun u => ⟨u.text⟩
    | _ => none

structure RepositoryInfo where
  base : RsyncUri
  notification : Option HttpsUri
deriving DecidableEq, Repr, Inhabited

instance : JsonForm RepositoryInfo where
  toJson i := .obj [("sia_base", toJson i.base), ("rrdp_notification_uri", toJson i.notification)]
  ofJson? j := do
    let [base, notification] ←
      j.slots [["sia_base", "base_uri"], ["rrdp_notification_uri", "rpki_notify"]] | none
    return ⟨← Json.required base, ← Json.orElse notification none⟩

structure RepositoryResponse where
  idCert : String
  name : PublisherName
  service : ServiceUri
  info : RepositoryInfo
  tag : Option String
deriving DecidableEq, Repr, Inhabited

instance : JsonForm RepositoryResponse where
  toJson r := .obj [("id_cert", toJson r.idCert), ("publisher_handle", toJson r.name),
    ("service_uri", toJson r.service), ("repo_info", toJson r.info), ("tag", toJson r.tag)]
  ofJson? j := do
    let [idCert, name, service, info, tag] ← j.slots
      [["id_cert"], ["publisher_handle"], ["service_uri"], ["repo_info"], ["tag"]] | none
    return ⟨← Json.required idCert, ← Json.required name, ← Json.required service,
      ← Json.required info, ← Json.orElse tag none⟩

structure PublisherRepository where
  request : PublisherRequest
  response : RepositoryResponse
deriving DecidableEq, Repr, Inhabited

instance : JsonForm PublisherRepository where
  toJson r := .obj [("request", toJson r.request), ("response", toJson r.response)]
  ofJson? j := do
    let [request, response] ← j.slots [["request"], ["response"]] | none
    return ⟨← Json.required request, ← Json.required response⟩

end ResourcePki
