import ResourcePki.Authority.Identity
import ResourcePki.Publication.Exchange
import ResourcePki.Time.Text

/-!
Why an operation fails. Errors are causes; `message` is their wording, `category` tells an
interface how to answer, and `isTransient` whether the same command may succeed when repeated.
-/

namespace ResourcePki

inductive RepositoryFault where
  | duplicate (handle : PublisherHandle)
  | notFound (handle : PublisherHandle)
  | unavailable (text : String)
deriving DecidableEq, Repr

def RepositoryFault.message : RepositoryFault → String
  | duplicate handle => s!"Publisher '{handle.text}' already exists"
  | notFound handle => s!"Publisher '{handle.text}' is unknown"
  | unavailable text => s!"Repository service unavailable: {text}"

inductive StateFault where
  | noUri (filename : String) (directory : RsyncUri) (fault : Uri.Fault)
  | noDirectory (ca : CaName) (fault : Uri.Fault)
  | noPlace
  | stillValid (serial : Nat) (notAfter : Time)
  | noCertifiedKey (child : CaName)
  | noUsableKey (ca : CaName)
  | ownParent (ca : CaId)
  | other (text : String)
deriving DecidableEq, Repr

def StateFault.message : StateFault → String
  | noUri filename directory fault =>
    s!"cannot join '{filename}' to '{directory.text}': {fault.message}"
  | noDirectory ca fault => s!"cannot derive publication directory for '{ca}': {fault.message}"
  | noPlace => "a certificate that is not embedded needs a filename and a publication directory"
  | stillValid serial notAfter =>
    s!"certificate with serial {serial} is valid until {notAfter.messageText}"
  | noCertifiedKey child => s!"no certified current key to issue a certificate for '{child}'"
  | noUsableKey ca => s!"CA '{ca}' has no usable key"
  | ownParent ca => s!"CA {ca} cannot be its own parent"
  | other text => text

inductive RequestFault where
  | malformed
  | certificate (name : PublisherName)
  | other (text : String)
deriving DecidableEq, Repr

def RequestFault.message : RequestFault → String
  | malformed => "not a publisher request"
  | certificate name => s!"identity certificate of '{name.text}' rejected: not a valid certificate"
  | other text => text

inductive Error where
  | illegalState (fault : StateFault)
  | caUnknown (id : CaId)
  | caNameUnknown (name : CaName)
  | keyUnknown (ski : String)
  | publisherRepositoryUnknown (ca : CaName) (handle : PublisherHandle)
  | caDuplicate (name : CaName)
  | caNotManaged (name : CaName)
  | caNotNonHosted (name : CaName)
  | caNotAllResources (name : CaName)
  | invalidPublisherRequest (fault : RequestFault)
  | publisherDuplicate (ca : CaName) (handle : PublisherHandle)
  | resourceLimitExceeded (ca : CaName) (limit : Nat)
  | repositoryService (fault : RepositoryFault)
  | signer (text : String)
  | resourceLookup (text : String)
  | resourceCacheEmpty
  | unavailable (text : String)
  | custom (text : String)
deriving DecidableEq, Repr

inductive ErrorCategory where
  | notFound
  | badRequest
  | conflict
  | limitExceeded
  | forbidden
  | internal
deriving DecidableEq, Repr

def ErrorCategory.text : ErrorCategory → String
  | notFound => "not-found"
  | badRequest => "bad-request"
  | conflict => "conflict"
  | limitExceeded => "limit-exceeded"
  | forbidden => "forbidden"
  | internal => "internal"

namespace Error

def kind : Error → String
  | illegalState _ => "IllegalState"
  | caUnknown _ => "CaUnknown"
  | caNameUnknown _ => "CaNameUnknown"
  | keyUnknown _ => "KeyUnknown"
  | publisherRepositoryUnknown _ _ => "PublisherRepositoryUnknown"
  | caDuplicate _ => "CaDuplicate"
  | caNotManaged _ => "CaNotManaged"
  | caNotNonHosted _ => "CaNotNonHosted"
  | caNotAllResources _ => "CaNotAllResources"
  | invalidPublisherRequest _ => "InvalidPublisherRequest"
  | publisherDuplicate _ _ => "PublisherDuplicate"
  | resourceLimitExceeded _ _ => "ResourceLimitExceeded"
  | repositoryService _ => "RepositoryService"
  | signer _ => "Signer"
  | resourceLookup _ => "ResourceLookup"
  | resourceCacheEmpty => "ResourceCacheEmpty"
  | unavailable _ => "Unavailable"
  | custom _ => "Custom"

def message : Error → String
  | illegalState fault => s!"Illegal state: {fault.message}"
  | caUnknown id => s!"Unknown CA id '{id}'"
  | caNameUnknown name => s!"Unknown CA '{name}'"
  | keyUnknown ski => s!"Unknown key '{ski}'"
  | publisherRepositoryUnknown ca handle =>
    s!"CA '{ca}' has no publisher repository '{handle.text}'"
  | caDuplicate name => s!"CA '{name}' already exists"
  | caNotManaged name => s!"CA '{name}' is not managed by this system"
  | caNotNonHosted name => s!"CA '{name}' is not a non-hosted CA"
  | caNotAllResources name => s!"CA '{name}' is not the all resources CA"
  | invalidPublisherRequest fault => s!"Invalid publisher request: {fault.message}"
  | publisherDuplicate ca handle => s!"CA '{ca}' already has publisher repository '{handle.text}'"
  | resourceLimitExceeded ca limit =>
    s!"CA '{ca}' has reached the limit of {limit} publisher repositories"
  | repositoryService fault => s!"Repository service error: {fault.message}"
  | signer text => s!"Signing issue: {text}"
  | resourceLookup text => s!"Resource lookup failed: {text}"
  | resourceCacheEmpty => "Resource cache has not been populated"
  | unavailable text => s!"Temporarily unavailable: {text}"
  | custom text => text

/-- Whether the same command may succeed when it is executed again. -/
def isTransient : Error → Bool
  | unavailable _ => true
  | repositoryService (.unavailable _) => true
  | _ => false

def category : Error → ErrorCategory
  | caUnknown _ => .notFound
  | caNameUnknown _ => .notFound
  | keyUnknown _ => .notFound
  | publisherRepositoryUnknown _ _ => .notFound
  | repositoryService (.notFound _) => .notFound
  | caNotManaged _ => .badRequest
  | caNotNonHosted _ => .badRequest
  | caNotAllResources _ => .badRequest
  | invalidPublisherRequest _ => .badRequest
  | caDuplicate _ => .conflict
  | publisherDuplicate _ _ => .conflict
  | repositoryService (.duplicate _) => .conflict
  | resourceLimitExceeded _ _ => .limitExceeded
  | _ => .internal

end Error

end ResourcePki
