import ResourcePki.Dispatch.Session
import ResourcePki.Issuance.Certify

/-!
The commands that create a hosted CA and that update its certificates. A CA is certified for what
the registry lists for it as far as its parent is certified for that.
-/

namespace ResourcePki

/--
What a CA may be certified for: everything for the all-resources CA, else what the registry says.
When that fails, the event says so and the CA is left alone.
-/
def CertificateAuthority.certifiable (ca : CertificateAuthority) (lookup : ResourceLookup) :
    Option ResourceSet × Option Event :=
  match ca.kind with
  | .allResources _ _ => (some .all, none)
  | _ =>
    match lookup ca.identity with
    | .ok resources => (resources, none)
    | .error e => (none, some (.lookupFailed ca.name e))

namespace Services

variable (s : Services) (timing : IssuanceTiming)

def terms (child : CaId) (resources : ResourceSet) : CertificationTerms where
  child := child
  resources := resources
  now := s.now
  validity := timing.newValidity s.now
  renewBefore := timing.reissueThreshold s.now
  sign := s.sign

/-- What a CA may be certified for; a failure to find out goes into the log. -/
def certifiable (ca : CertificateAuthority) : Action Journal (Option ResourceSet) := do
  let (resources, event) := ca.certifiable s.lookup
  if let some e := event then Action.log e
  return resources

/--
Brings the certificates that its parent issued to a CA in line with what the CA holds; says whether
anything changed. Nothing is done for a CA without a parent, without a certified parent or without
an entry in the registry.
-/
def updateIncoming (id : CaId) : Action Journal Bool := do
  let ca ← Action.require id
  let some parent := ca.parent | return false
  let some held := (← Action.require parent).certified | return false
  let some requested ← s.certifiable ca | return false
  Action.updatePair parent id (alignPair (s.terms timing id (requested.inter held)))

def createKey : Action Journal KeyPair :=
  Action.attempt fun j =>
    let (pair, keys) := s.keys.take j.keys
    (pair, { j with keys })

/--
Creates a hosted CA with one key pair under a parent, and has it certified; says whether anything
changed. That the CA is there already is not a failure.
-/
def activate (id : CaId) (name : CaName) (parent : CaId) : Action Journal Bool := do
  if let some existing ← Action.get? id then
    if existing.name = name ∧ existing.parent = some parent then return false
    else throw (.caDuplicate name)
  let keys ← Action.ofExcept (← Action.require parent).requireKeys
  let directory ← Action.ofExcept <| (keys.directory.join s!"{id}/").mapError fun fault =>
    .illegalState (.noDirectory name fault)
  let pair ← s.createKey
  Action.insert { id, name, parent := some parent, kind := .hosted { pairs := [pair], directory } }
  let _ ← s.updateIncoming timing id
  return true

end Services

end ResourcePki
