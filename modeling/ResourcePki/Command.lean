import ResourcePki.Authority.Identity
import ResourcePki.Publication.Exchange
import ResourcePki.Time.Text

/-! Commands: who wants what to be done to which CA. -/

namespace ResourcePki

inductive Actor where
  | system (name : String)
  | user (name : String)
deriving DecidableEq, Repr

namespace Actor

def name : Actor → String
  | system name => name
  | user name => name

def isUser : Actor → Bool
  | system _ => false
  | user _ => true

def text : Actor → String
  | system name => name
  | user name => s!"user:{name}"

def background : Actor := system "background"

def publishers : Actor := system "publishers"

end Actor

inductive CommandType where
  | activateHostedCa
  | updateAllIncoming
  | generateTrustAnchorRequest
  | processRevokedKey
  | expireOutgoing
  | provisionPublisher
  | deletePublisher
deriving DecidableEq, Repr

namespace CommandType

def all : List CommandType :=
  [activateHostedCa, updateAllIncoming, generateTrustAnchorRequest, processRevokedKey,
    expireOutgoing, provisionPublisher, deletePublisher]

def text : CommandType → String
  | activateHostedCa => "activate hosted CA"
  | updateAllIncoming => "update all incoming resource certificates"
  | generateTrustAnchorRequest => "generate trust anchor request"
  | processRevokedKey => "process revoked key"
  | expireOutgoing => "expire outgoing resource certificates"
  | provisionPublisher => "provision non-hosted publisher"
  | deletePublisher => "delete non-hosted publisher"

/-- Whether the command can change what the parent of its CA has issued. -/
def affectsParent : CommandType → Bool
  | activateHostedCa => true
  | updateAllIncoming => true
  | _ => false

end CommandType

inductive CommandDetails where
  /-- Creates a hosted CA under a parent and has it certified. -/
  | activateHostedCa (name : CaName) (parent : CaId)
  /-- Brings what the parent issued to the CA in line with what the CA holds. -/
  | updateAllIncoming
  | generateTrustAnchorRequest
  | processRevokedKey (ski : String)
  | expireOutgoing (now : Time)
  | provisionPublisher (handle : PublisherHandle) (request : PublisherRequest)
      (response : RepositoryResponse)
  | deletePublisher (handle : PublisherHandle)
deriving DecidableEq, Repr

namespace CommandDetails

def type : CommandDetails → CommandType
  | activateHostedCa _ _ => .activateHostedCa
  | updateAllIncoming => .updateAllIncoming
  | generateTrustAnchorRequest => .generateTrustAnchorRequest
  | processRevokedKey _ => .processRevokedKey
  | expireOutgoing _ => .expireOutgoing
  | provisionPublisher _ _ _ => .provisionPublisher
  | deletePublisher _ => .deletePublisher

def text : CommandDetails → String
  | activateHostedCa name parent => s!"activate hosted CA '{name}' under {parent}"
  | processRevokedKey ski => s!"process revoked key '{ski}'"
  | expireOutgoing now => s!"expire outgoing certificates before {now.messageText}"
  | provisionPublisher handle _ _ => s!"provision publisher repository '{handle.text}'"
  | deletePublisher handle => s!"delete publisher repository '{handle.text}'"
  | details => details.type.text

end CommandDetails

structure CaCommand where
  ca : CaId
  actor : Actor
  details : CommandDetails
deriving DecidableEq, Repr

namespace CaCommand

def type (c : CaCommand) : CommandType := c.details.type

def text (c : CaCommand) : String :=
  s!"ca '{c.ca}' actor '{c.actor.text}' details '{c.details.text}'"

end CaCommand

inductive CommandFilter where
  | any
  | only (types : List CommandType)
deriving DecidableEq, Repr

def CommandFilter.accepts : CommandFilter → CommandType → Bool
  | any, _ => true
  | only types, type => types.contains type

structure CommandStatus where
  hadEffect : Bool := false
deriving DecidableEq, Repr

def CommandStatus.setHadEffect (s : CommandStatus) : CommandStatus := { s with hadEffect := true }

end ResourcePki
