import ResourcePki.Dispatch.Engine
import ResourcePki.Publishing.Service

/-!
The publisher repositories of non-hosted CAs. A repository exists in two places, with the external
service and in the tree of CAs. It is created outside first and removed there last; when it cannot
be entered in the tree, it is removed outside again. Both operations are sequences of steps, between
which those of other clients may come.
-/

namespace ResourcePki

structure PublishingState (ε : Type) where
  engine : Engine ε
  /-- What the repository service was asked, the last call first. -/
  calls : List RepositoryCall := []

structure PublisherRepositories (ε : Type) where
  execute : CommandService ε
  service : RepositoryService
  /-- How many repositories a CA may have when another is asked for. -/
  limit : Nat
  /-- Whether an identity certificate, in base64, is valid now. -/
  isIdentity : String → Bool

/-- What is logged after the cleanup that followed an error. -/
def cleanupEvents (e : Error) : Except RepositoryFault Unit → List Event
  | .ok () => []
  | .error fault => [.cleanupFailed e fault]

/-- Refuses a request whose identity certificate is not valid. -/
def PublisherRequest.validate (isIdentity : String → Bool) (request : PublisherRequest) :
    Except Error Unit :=
  if isIdentity request.idCert then .ok ()
  else .error (.invalidPublisherRequest (.certificate request.name))

namespace CaTree

/-- The non-hosted CA with a name, and its repositories. -/
def nonHosted (t : CaTree) (name : CaName) :
    Except Error (CaId × SortedMap PublisherHandle PublisherRepository) :=
  match t.findByName? name with
  | none => .error (.caNameUnknown name)
  | some ca =>
    match ca.publishers? with
    | none => .error (.caNotNonHosted name)
    | some publishers => .ok (ca.id, publishers)

/-- What each publisher of a CA got from the repository service. -/
def publisherResponses (t : CaTree) (name : CaName) :
    Except Error (List (PublisherHandle × RepositoryResponse)) := do
  let (_, publishers) ← t.nonHosted name
  return publishers.entries.map fun e => (e.1, e.2.response)

def publisherResponse (t : CaTree) (name : CaName) (handle : PublisherHandle) :
    Except Error RepositoryResponse := do
  let (_, publishers) ← t.nonHosted name
  match publishers.get? handle with
  | some repository => return repository.response
  | none => throw (.publisherRepositoryUnknown name handle)

end CaTree

inductive ProvisionStage where
  | requested
  /-- The CA may have another repository, and the request is valid. -/
  | admitted (ca : CaId)
  /-- The repository service knows the publisher. -/
  | created (ca : CaId) (handle : PublisherHandle) (response : RepositoryResponse)
  /-- The CA does not; what was created is to be removed. -/
  | refused (handle : PublisherHandle) (e : Error)
  | ended (result : Except Error PublisherHandle)

inductive DeletionStage where
  | requested
  /-- The CA no longer has the repository. -/
  | unregistered
  | ended (result : Except Error Unit)

namespace PublisherRepositories

variable {ε : Type} (desk : PublisherRepositories ε)

/-- Whether a CA may have another repository on a request. -/
def accept (t : CaTree) (name : CaName) (request : PublisherRequest) : Except Error CaId := do
  let (ca, publishers) ← t.nonHosted name
  if desk.limit ≤ publishers.size then throw (.resourceLimitExceeded name desk.limit)
  request.validate desk.isIdentity
  return ca

/-- Asks the repository service to remove a publisher. -/
def deleteOutside (handle : PublisherHandle) (s : PublishingState ε) :
    Except RepositoryFault Unit × PublishingState ε :=
  let outcome := desk.service.delete s.calls handle
  (outcome, { s with calls := .delete handle outcome :: s.calls })

/-- The next step of a provision; one that has ended takes no more. -/
def advanceProvision (name : CaName) (request : PublisherRequest) :
    ProvisionStage → PublishingState ε → ProvisionStage × PublishingState ε
  | .requested, s =>
    match desk.accept s.engine.tree name request with
    | .ok ca => (.admitted ca, s)
    | .error e => (.ended (.error e), s)
  | .admitted ca, s =>
    let handle := desk.service.handle s.calls
    let outcome := desk.service.create s.calls handle request
    let s := { s with calls := .create handle request outcome :: s.calls }
    match outcome with
    | .ok response => (.created ca handle response, s)
    | .error fault => (.ended (.error (.repositoryService fault)), s)
  | .created ca handle response, s =>
    match desk.execute ⟨ca, .publishers, .provisionPublisher handle request response⟩ s.engine with
    | (.ok _, engine) => (.ended (.ok handle), { s with engine })
    | (.error e, engine) => (.refused handle e, { s with engine })
  | .refused handle e, s =>
    let (outcome, s) := desk.deleteOutside handle s
    (.ended (.error e), { s with engine := (cleanupEvents e outcome).foldl .note s.engine })
  | .ended result, s => (.ended result, s)

/-- The steps of a provision, which are four at most. -/
def runProvision (name : CaName) (request : PublisherRequest) :
    Nat → ProvisionStage → PublishingState ε → ProvisionStage × PublishingState ε
  | 0, stage, s => (stage, s)
  | n + 1, stage, s =>
    let r := desk.advanceProvision name request stage s
    runProvision name request n r.1 r.2

/-- What a deletion comes to when the repository service has answered. -/
def settleDeletion (name : CaName) (handle : PublisherHandle) (e : Engine ε) :
    Except RepositoryFault Unit → Except Error Unit × Engine ε
  | .ok () => (.ok (), e)
  | .error (.notFound _) => (.ok (), e.note (.alreadyRemoved handle name))
  | .error fault => (.error (.repositoryService fault), e)

/-- The next step of a deletion; one that has ended takes no more. -/
def advanceDeletion (name : CaName) (handle : PublisherHandle) :
    DeletionStage → PublishingState ε → DeletionStage × PublishingState ε
  | .requested, s =>
    match s.engine.tree.nonHosted name with
    | .error e => (.ended (.error e), s)
    | .ok (ca, _) =>
      match desk.execute ⟨ca, .publishers, .deletePublisher handle⟩ s.engine with
      | (.ok _, engine) => (.unregistered, { s with engine })
      | (.error e, engine) => (.ended (.error e), { s with engine })
  | .unregistered, s =>
    let (outcome, s) := desk.deleteOutside handle s
    let (result, engine) := settleDeletion name handle s.engine outcome
    (.ended result, { s with engine })
  | .ended result, s => (.ended result, s)

/-- The steps of a deletion, which are two at most. -/
def runDeletion (name : CaName) (handle : PublisherHandle) :
    Nat → DeletionStage → PublishingState ε → DeletionStage × PublishingState ε
  | 0, stage, s => (stage, s)
  | n + 1, stage, s =>
    let r := desk.advanceDeletion name handle stage s
    runDeletion name handle n r.1 r.2

end PublisherRepositories

def ProvisionStage.result? : ProvisionStage → Option (Except Error PublisherHandle)
  | ended result => some result
  | _ => none

def DeletionStage.result? : DeletionStage → Option (Except Error Unit)
  | ended result => some result
  | _ => none

namespace PublisherRepositories

variable {ε : Type} (desk : PublisherRepositories ε)

theorem runProvision_of_ended {name : CaName} {request : PublisherRequest}
    {result : Except Error PublisherHandle} (n : Nat) (s : PublishingState ε) :
    desk.runProvision name request n (.ended result) s = (.ended result, s) := by
  induction n with
  | zero => rfl
  | succ n ih => exact ih

theorem runDeletion_of_ended {name : CaName} {handle : PublisherHandle}
    {result : Except Error Unit} (n : Nat) (s : PublishingState ε) :
    desk.runDeletion name handle n (.ended result) s = (.ended result, s) := by
  induction n with
  | zero => rfl
  | succ n ih => exact ih

theorem runProvision_isSome (name : CaName) (request : PublisherRequest)
    (s : PublishingState ε) :
    (desk.runProvision name request 4 .requested s).1.result?.isSome = true := by
  have created : ∀ ca handle response (s : PublishingState ε),
      (desk.runProvision name request 2 (.created ca handle response) s).1.result?.isSome
        = true := by
    intro ca handle response s
    rw [runProvision, advanceProvision]
    split
    · rw [runProvision_of_ended]; rfl
    · rfl
  have admitted : ∀ ca (s : PublishingState ε),
      (desk.runProvision name request 3 (.admitted ca) s).1.result?.isSome = true := by
    intro ca s
    rw [runProvision, advanceProvision]
    split
    · exact created _ _ _ _
    · rw [runProvision_of_ended]; rfl
  rw [runProvision, advanceProvision]
  split
  · exact admitted _ _
  · rw [runProvision_of_ended]; rfl

theorem runDeletion_isSome (name : CaName) (handle : PublisherHandle) (s : PublishingState ε) :
    (desk.runDeletion name handle 2 .requested s).1.result?.isSome = true := by
  rw [runDeletion, advanceDeletion]
  split
  · rw [runDeletion_of_ended]; rfl
  · split
    · rfl
    · rw [runDeletion_of_ended]; rfl

/-- Sets up a repository for a publisher of a non-hosted CA; the result is its handle. -/
def provision (name : CaName) (request : PublisherRequest) (s : PublishingState ε) :
    Except Error PublisherHandle × PublishingState ε :=
  let r := desk.runProvision name request 4 .requested s
  (r.1.result?.get (desk.runProvision_isSome name request s), r.2)

def delete (name : CaName) (handle : PublisherHandle) (s : PublishingState ε) :
    Except Error Unit × PublishingState ε :=
  let r := desk.runDeletion name handle 2 .requested s
  (r.1.result?.get (desk.runDeletion_isSome name handle s), r.2)

end PublisherRepositories

end ResourcePki
