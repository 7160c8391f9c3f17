import ResourcePki.Authority.Publishers
import ResourcePki.Dispatch.Engine
import ResourcePki.Invariant.Check
import ResourcePki.Issuance.Update

/-! The handlers of a running system: one for each kind of business, and the invariant checks. -/

namespace ResourcePki

namespace Handler

def noteEffect (step : Action Journal Bool) : Action Journal Unit := do
  if ← step then Action.setHadEffect

def activateHostedCa (s : Services) (timing : IssuanceTiming) : Handler Journal where
  name := "activate-hosted-ca"
  filter := .only [.activateHostedCa]
  handle command :=
    match command.details with
    | .activateHostedCa name parent => noteEffect (s.activate timing command.ca name parent)
    | _ => pure ()

def updateAllIncoming (s : Services) (timing : IssuanceTiming) : Handler Journal where
  name := "update-all-incoming-resource-certificates"
  filter := .only [.updateAllIncoming]
  handle command := noteEffect (s.updateIncoming timing command.ca)

def childIdentities (t : CaTree) (ca : CertificateAuthority) : List CaIdentity :=
  ca.children.toList.filterMap fun id => (t.get? id).map (·.identity)

def generateRequest (s : Services) (id : CaId) : Action Journal Unit := do
  let children := childIdentities (← Action.tree) (← Action.require id)
  Action.updateWith id fun j ca =>
    match ca.prepareRequest children s.keys (s.requestId j.requests) s.now j.keys with
    | (.ok ca, keys) => (.ok ca, { j with keys, requests := j.requests + 1 })
    | (.error e, keys) => (.error e, { j with keys })
  Action.setHadEffect

def allResourcesCa (s : Services) : Handler Journal where
  name := "all-resources-ca"
  filter := .only [.generateTrustAnchorRequest, .processRevokedKey]
  handle command :=
    match command.details with
    | .generateTrustAnchorRequest => generateRequest s command.ca
    | .processRevokedKey ski => do
      Action.update command.ca (·.revokeKey ski)
      Action.setHadEffect
    | _ => pure ()

/-- Expires what a CA issued; a CA that is not managed here has issued nothing. -/
def expireIssued (id : CaId) (now : Time) : Action Journal Bool := do
  let some keys := (← Action.require id).keys? | return false
  let (count, keys) ← Action.ofExcept (keys.expireOutgoing now)
  Action.update id fun ca => .ok (ca.withKeys keys)
  return 0 < count

def expireOutgoing : Handler Journal where
  name := "expire-outgoing-resource-certificates"
  filter := .only [.expireOutgoing]
  handle command :=
    match command.details with
    | .expireOutgoing now => noteEffect (expireIssued command.ca now)
    | _ => pure ()

/-- Registers a repository, unless just this one is registered under the handle. -/
def registerPublisher (limit : Nat) (id : CaId) (handle : PublisherHandle)
    (repository : PublisherRepository) : Action Journal Bool := do
  let ca ← Action.require id
  if ca.publishers?.bind (·.get? handle) = some repository then return false
  Action.update id (·.addPublisher handle repository limit)
  return true

def nonHostedPublisher (limit : Nat) : Handler Journal where
  name := "non-hosted-publisher"
  filter := .only [.provisionPublisher, .deletePublisher]
  handle command :=
    match command.details with
    | .provisionPublisher handle request response =>
      noteEffect (registerPublisher limit command.ca handle ⟨request, response⟩)
    | .deletePublisher handle => do
      Action.update command.ca (·.removePublisher handle)
      Action.setHadEffect
    | _ => pure ()

end Handler

/-- Checks the CA of a command, and its parent if the command may have changed what that issued. -/
def InvariantModel.checkCommand (m : InvariantModel) (command : CaCommand) (t : CaTree) :
    Except InvariantViolation Unit :=
  match t.get? command.ca with
  | none => .ok ()
  | some ca => do
    m.check ca
    if command.type.affectsParent then
      if let some parent := ca.parent.bind t.get? then m.check parent

/-- Checks after every command, and reports what is wrong without failing the command. -/
def Handler.invariants (m : InvariantModel) : Handler Journal where
  name := s!"{m.text}-ca-invariants"
  order := Handler.observerOrder
  filter := .any
  handle command := do
    match m.checkCommand command (← Action.tree) with
    | .ok () => Action.ask fun j => ((), j.checked m false)
    | .error violation => do
      Action.ask fun j => ((), j.checked m true)
      Action.log (.invariantViolated command violation)

structure IssuancePolicy where
  timing : IssuanceTiming := {}
  /-- How many repositories a non-hosted CA may have. -/
  publisherLimit : Nat := 10
  /-- Whether the managed model is checked as well. -/
  checksManaged : Bool := true
deriving DecidableEq, Repr

def businessHandlers (s : Services) (policy : IssuancePolicy) : List (Handler Journal) :=
  [.activateHostedCa s policy.timing, .updateAllIncoming s policy.timing, .allResourcesCa s,
    .expireOutgoing, .nonHostedPublisher policy.publisherLimit]

def checkingHandlers (policy : IssuancePolicy) : List (Handler Journal) :=
  .invariants .hosted :: if policy.checksManaged then [.invariants .managed] else []

def standardHandlers (s : Services) (policy : IssuancePolicy) : List (Handler Journal) :=
  businessHandlers s policy ++ checkingHandlers policy

end ResourcePki
