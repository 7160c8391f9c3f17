import ResourcePki.Server
import ResourcePki.Proofs.Publishing.Records

/-! Clients of the publisher repositories, and all that one step of a client can do to the records.
Between its steps a client may have a publisher in hand that the service has and no CA. -/

namespace ResourcePki

open RepositoryCall

/-- Someone who sets up a repository or removes one, and how far that has come. -/
inductive PublisherClient where
  | provision (name : CaName) (request : PublisherRequest) (stage : ProvisionStage)
  | deletion (name : CaName) (handle : PublisherHandle) (stage : DeletionStage)

/-- A publisher that a client has in hand: the service has it, and no CA. -/
inductive PendingPublisher where
  /-- It was created on a request, and is to be registered or removed again. -/
  | created (handle : PublisherHandle) (request : PublisherRequest)
  /-- It was registered before, and is to be removed. -/
  | dropped (handle : PublisherHandle)

def PendingPublisher.handle : PendingPublisher → PublisherHandle
  | created handle _ => handle
  | dropped handle => handle

namespace PublisherClient

def pending? : PublisherClient → Option PendingPublisher
  | provision _ request (.created _ handle _) => some (.created handle request)
  | provision _ request (.refused handle _) => some (.created handle request)
  | deletion _ handle .unregistered => some (.dropped handle)
  | _ => none

def isNew : PublisherClient → Bool
  | provision _ _ .requested => true
  | deletion _ _ .requested => true
  | _ => false

/-- Whether the next step of a client is to draw a handle. -/
def draws : PublisherClient → Bool
  | provision _ _ (.admitted _) => true
  | _ => false

def advance (desk : PublisherRepositories Journal) :
    PublisherClient → PublishingState Journal → PublisherClient × PublishingState Journal
  | provision name request stage, s =>
    let r := desk.advanceProvision name request stage s
    (provision name request r.1, r.2)
  | deletion name handle stage, s =>
    let r := desk.advanceDeletion name handle stage s
    (deletion name handle r.1, r.2)

theorem pending?_of_isNew {c : PublisherClient} (h : c.isNew = true) : c.pending? = none := by
  cases c with
  | provision name request stage => cases stage <;> first | rfl | cases h
  | deletion name handle stage => cases stage <;> first | rfl | cases h

/-- All that a step of a client can do. -/
inductive Moves (server : Server) (c c' : PublisherClient) (s s' : PublishingState Journal) :
    Prop
  | waits (hpending : c'.pending? = c.pending?) (htree : s'.engine.tree = s.engine.tree)
      (hcalls : s'.calls = s.calls)
  | creates (request : PublisherRequest) (outcome : Except RepositoryFault RepositoryResponse)
      (hdraws : c.draws = true) (hbefore : c.pending? = none)
      (hafter : c'.pending? = outcome.toOption.map fun _ =>
        .created (server.repositories.handle s.calls) request)
      (htree : s'.engine.tree = s.engine.tree)
      (hcalls : s'.calls =
        .create (server.repositories.handle s.calls) request outcome :: s.calls)
  | registers (id : CaId) (handle : PublisherHandle) (request : PublisherRequest)
      (hbefore : c.pending? = some (.created handle request)) (hafter : c'.pending? = none)
      (htree : CaTree.Registered server.config.publisherLimit s.engine.tree id handle
        s'.engine.tree)
      (hcalls : s'.calls = s.calls)
  | unregisters (id : CaId) (handle : PublisherHandle)
      (hbefore : c.pending? = none) (hafter : c'.pending? = some (.dropped handle))
      (htree : CaTree.Unregistered s.engine.tree id handle s'.engine.tree)
      (hcalls : s'.calls = s.calls)
  | removes (p : PendingPublisher) (outcome : Except RepositoryFault Unit)
      (hbefore : c.pending? = some p) (hafter : c'.pending? = none)
      (htree : s'.engine.tree = s.engine.tree)
      (hcalls : s'.calls = .delete p.handle outcome :: s.calls)

theorem tree_cleanup (e : Error) (outcome : Except RepositoryFault Unit) (m : Engine Journal) :
    ((cleanupEvents e outcome).foldl .note m).tree = m.tree := by
  cases outcome <;> rfl

theorem tree_settleDeletion (name : CaName) (handle : PublisherHandle) (m : Engine Journal)
    (outcome : Except RepositoryFault Unit) :
    (PublisherRepositories.settleDeletion name handle m outcome).2.tree = m.tree := by
  unfold PublisherRepositories.settleDeletion
  split <;> rfl

theorem advance_moves (server : Server) {c : PublisherClient} {s : PublishingState Journal}
    (hloose : ∀ p, c.pending? = some p → ∀ id, ¬ s.engine.tree.Registers id p.handle) :
    Moves server c (c.advance server.publishers s).1 s (c.advance server.publishers s).2 := by
  cases c with
  | provision name request stage =>
    rw [advance]
    cases stage with
    | requested =>
      rw [PublisherRepositories.advanceProvision]
      split
      · exact .waits rfl rfl rfl
      · exact .waits rfl rfl rfl
    | admitted id =>
      rw [PublisherRepositories.advanceProvision]
      dsimp only
      split
      · rename_i response hcreate
        refine .creates request (.ok response) rfl rfl rfl rfl ?_
        rw [← hcreate]
        rfl
      · rename_i fault hcreate
        refine .creates request (.error fault) rfl rfl rfl rfl ?_
        rw [← hcreate]
        rfl
    | created id handle response =>
      rw [PublisherRepositories.advanceProvision]
      split
      · rename_i status engine hrun
        refine .registers id handle request rfl rfl ?_ rfl
        exact Dispatcher.execute_provision_ok (hloose (.created handle request) rfl id) hrun
      · rename_i err engine hrun
        exact .waits rfl (Dispatcher.execute_standard_error hrun) rfl
    | refused handle err =>
      exact .removes (.created handle request) _ rfl rfl (tree_cleanup ..) rfl
    | ended result => exact .waits rfl rfl rfl
  | deletion name handle stage =>
    rw [advance]
    cases stage with
    | requested =>
      rw [PublisherRepositories.advanceDeletion]
      split
      · exact .waits rfl rfl rfl
      · rename_i id publishers hca
        split
        · rename_i status engine hrun
          exact .unregisters id handle rfl rfl (Dispatcher.execute_delete_ok hrun) rfl
        · rename_i err engine hrun
          exact .waits rfl (Dispatcher.execute_standard_error hrun) rfl
    | unregistered => exact .removes (.dropped handle) _ rfl rfl (tree_settleDeletion ..) rfl
    | ended result => exact .waits rfl rfl rfl

section provision

variable {name : CaName} {request : PublisherRequest} {stage : ProvisionStage}
  {s : PublishingState Journal}

/-- Whatever comes in between, no step of a provision takes a publisher from a CA. -/
theorem registers_provision {server : Server} {id : CaId} {h : PublisherHandle}
    (hloose : ∀ p, (provision name request stage).pending? = some p →
      ∀ id, ¬ s.engine.tree.Registers id p.handle)
    (hbefore : s.engine.tree.Registers id h) :
    ((provision name request stage).advance server.publishers s).2.engine.tree.Registers id h := by
  have hdropped : ∀ stage' handle,
      (provision name request stage').pending? ≠ some (.dropped handle) := by
    intro stage' handle hp
    cases stage' <;> cases hp
  cases advance_moves server hloose with
  | waits hpending htree hcalls => exact htree ▸ hbefore
  | creates request' outcome hdraws hnone hafter htree hcalls => exact htree ▸ hbefore
  | registers x handle request' hcreated hafter htree hcalls =>
    exact (htree.registers id h).mpr (.inl hbefore)
  | unregisters x handle hnone hafter htree hcalls => exact absurd hafter (hdropped _ handle)
  | removes p outcome hcreated hafter htree hcalls => exact htree ▸ hbefore

/-- A provision has the service remove a publisher only if the CA refused it. -/
theorem refused_of_removed {desk : PublisherRepositories Journal} {known : List PublisherHandle}
    {h : PublisherHandle} (hbefore : h ∈ outside known s.calls)
    (hafter : h ∉ outside known ((provision name request stage).advance desk s).2.calls) :
    ∃ e, stage = .refused h e := by
  rw [advance] at hafter
  cases stage with
  | requested =>
    rw [PublisherRepositories.advanceProvision] at hafter
    split at hafter <;> exact absurd hbefore hafter
  | admitted id =>
    rw [PublisherRepositories.advanceProvision] at hafter
    dsimp only at hafter
    split at hafter <;> exact absurd (mem_outside_create.mpr (.inr hbefore)) hafter
  | created id handle response =>
    rw [PublisherRepositories.advanceProvision] at hafter
    split at hafter <;> exact absurd hbefore hafter
  | refused handle e =>
    by_cases heq : h = handle
    · exact ⟨e, heq ▸ rfl⟩
    · exact absurd (mem_outside_delete.mpr ⟨hbefore, fun h => absurd h heq⟩) hafter
  | ended result => exact absurd hbefore hafter

end provision

end PublisherClient

end ResourcePki
