import ResourcePki.Error

/-!
Errors as JSON: the kind of an error beside what it is about. A text stands for a cause that is
itself a fault, so that reading gives back an error of the same kind and wording.
-/

namespace ResourcePki

instance : JsonForm RepositoryFault where
  toJson fault := .obj <| match fault with
    | .duplicate handle => [("kind", .str "Duplicate"), ("handle", toJson handle)]
    | .notFound handle => [("kind", .str "NotFound"), ("handle", toJson handle)]
    | .unavailable text => [("kind", .str "Unavailable"), ("text", .str text)]
  ofJson? j :=
    match j.textOf "kind" with
    | "Duplicate" => .duplicate <$> j.field? "handle"
    | "NotFound" => .notFound <$> j.field? "handle"
    | "Unavailable" => some (.unavailable (j.textOf "text"))
    | _ => none

namespace Error

/-- What an error is about, beside its kind. -/
def details : Error → List (String × Json)
  | illegalState fault => [("text", .str fault.message)]
  | caUnknown id => [("id", toJson id)]
  | publisherRepositoryUnknown ca handle => [("ca", .str ca), ("handle", toJson handle)]
  | invalidPublisherRequest fault => [("text", .str fault.message)]
  | publisherDuplicate ca handle => [("ca", .str ca), ("handle", toJson handle)]
  | resourceLimitExceeded ca limit => [("ca", .str ca), ("limit", toJson limit)]
  | repositoryService fault => [("service", toJson fault)]
  | resourceCacheEmpty => []
  | caNameUnknown name => [("ca", .str name)]
  | caDuplicate name => [("ca", .str name)]
  | caNotManaged name => [("ca", .str name)]
  | caNotNonHosted name => [("ca", .str name)]
  | caNotAllResources name => [("ca", .str name)]
  | keyUnknown text => [("text", .str text)]
  | signer text => [("text", .str text)]
  | resourceLookup text => [("text", .str text)]
  | unavailable text => [("text", .str text)]
  | custom text => [("text", .str text)]

def ofRecord? (kind : String) (j : Json) : Option Error :=
  let text := j.textOf "text"
  let ca := j.textOf "ca"
  match kind with
  | "IllegalState" => some (.illegalState (.other text))
  | "CaUnknown" => .caUnknown <$> j.field? "id"
  | "CaNameUnknown" => some (.caNameUnknown ca)
  | "KeyUnknown" => some (.keyUnknown text)
  | "PublisherRepositoryUnknown" => .publisherRepositoryUnknown ca <$> j.field? "handle"
  | "CaDuplicate" => some (.caDuplicate ca)
  | "CaNotManaged" => some (.caNotManaged ca)
  | "CaNotNonHosted" => some (.caNotNonHosted ca)
  | "CaNotAllResources" => some (.caNotAllResources ca)
  | "InvalidPublisherRequest" => some (.invalidPublisherRequest (.other text))
  | "PublisherDuplicate" => .publisherDuplicate ca <$> j.field? "handle"
  | "ResourceLimitExceeded" => .resourceLimitExceeded ca <$> j.field? "limit"
  | "RepositoryService" => .repositoryService <$> j.field? "service"
  | "Signer" => some (.signer text)
  | "ResourceLookup" => some (.resourceLookup text)
  | "ResourceCacheEmpty" => some .resourceCacheEmpty
  | "Unavailable" => some (.unavailable text)
  | "Custom" => some (.custom text)
  | _ => none

end Error

instance : JsonForm Error where
  toJson e := .obj (("kind", .str e.kind) :: e.details)
  ofJson? j := Error.ofRecord? (j.textOf "kind") j

end ResourcePki
