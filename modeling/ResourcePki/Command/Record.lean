import ResourcePki.Command
import ResourcePki.Error.Record

/-! Commands as JSON: the type of a command beside the CA, the sender and what the type needs. -/

namespace ResourcePki

def CommandType.names : List (String × CommandType) :=
  [("activate_hosted_ca", .activateHostedCa), ("update_all_incoming", .updateAllIncoming),
    ("generate_trust_anchor_request", .generateTrustAnchorRequest),
    ("process_revoked_key", .processRevokedKey), ("expire_outgoing", .expireOutgoing),
    ("provision_publisher", .provisionPublisher), ("delete_publisher", .deletePublisher)]

instance : JsonForm CommandType := ⟨Json.nameOf CommandType.names, Json.named? CommandType.names⟩

instance : JsonForm Actor where
  toJson
    | .system name => .obj [("system", .str name)]
    | .user name => .obj [("user", .str name)]
  ofJson?
    | .obj [("system", .str name)] => some (.system name)
    | .obj [("user", .str name)] => some (.user name)
    | _ => none

namespace CommandDetails

def fields : CommandDetails → List (String × Json)
  | activateHostedCa name parent => [("name", .str name), ("parent", toJson parent)]
  | updateAllIncoming => []
  | generateTrustAnchorRequest => []
  | processRevokedKey ski => [("ski", .str ski)]
  | expireOutgoing now => [("now", toJson now)]
  | provisionPublisher handle request response =>
    [("handle", toJson handle), ("request", toJson request), ("response", toJson response)]
  | deletePublisher handle => [("handle", toJson handle)]

def ofRecord? (type : CommandType) (j : Json) : Option CommandDetails :=
  match type with
  | .activateHostedCa => .activateHostedCa <$> j.field? "name" <*> j.field? "parent"
  | .updateAllIncoming => some .updateAllIncoming
  | .generateTrustAnchorRequest => some .generateTrustAnchorRequest
  | .processRevokedKey => .processRevokedKey <$> j.field? "ski"
  | .expireOutgoing => .expireOutgoing <$> j.field? "now"
  | .provisionPublisher =>
    .provisionPublisher <$> j.field? "handle" <*> j.field? "request" <*> j.field? "response"
  | .deletePublisher => .deletePublisher <$> j.field? "handle"

end CommandDetails

instance : JsonForm CaCommand where
  toJson c := .obj ([("ca", toJson c.ca), ("actor", toJson c.actor), ("type", toJson c.type)] ++
    c.details.fields)
  ofJson? j := do
    let type ← j.field? "type"
    return { ca := ← j.field? "ca", actor := ← j.field? "actor"
             details := ← CommandDetails.ofRecord? type j }

end ResourcePki
