import ResourcePki.Registry
import ResourcePki.Server
import ResourcePki.Simulation.Plan

/-!
A server with simulated collaborators, which may be told otherwise while it runs.
-/

namespace ResourcePki

structure Deployment where
  config : Config
  now : Time
  isIdentity : String → Time → Bool
  registry : ResourceRegistry := {}
  /-- The names that the registry fails to look up. -/
  offline : List CaName := []
  signer : Signer := .planned [] [] 0
  keys : KeySource := .planned [] 0
  repositories : RepositoryService := .planned (fun _ => none) fun _ => none
  /-- The limit on publishers, if it is not the one of the configuration. -/
  publisherLimit : Option Nat := none
  state : PublishingState Journal

namespace Deployment

def engine (d : Deployment) : Engine Journal := d.state.engine

def tree (d : Deployment) : CaTree := d.engine.tree

def withEngine (d : Deployment) (e : Engine Journal) : Deployment :=
  { d with state := { d.state with engine := e } }

def server (d : Deployment) : Server where
  config := d.config
  services := { now := d.now, lookup := d.registry.lookupExcept d.offline, keys := d.keys
                sign := d.signer, requestId := IdSeries.requests.get }
  repositories := d.repositories
  isIdentity := d.isIdentity

def publishers (d : Deployment) : PublisherRepositories Journal :=
  let publishers := d.server.publishers
  { publishers with limit := d.publisherLimit.getD publishers.limit }

def updateJob (d : Deployment) : UpdateJob Journal := d.server.updateJob d.registry.verifyPresent

def planSigner (d : Deployment) (refused : List String) (plan : FailurePlan) : Deployment :=
  { d with signer := .planned refused plan d.engine.memory.signings.length }

def planKeys (d : Deployment) (plan : FailurePlan) : Deployment :=
  { d with keys := .planned plan d.engine.memory.keys.length }

end Deployment

end ResourcePki
