import ResourcePki.Config.Basic
import ResourcePki.Publishing.Documents
import ResourcePki.Reconciliation.Job

/-!
The running system: the tree and its journal, with the dispatcher, the update job and the publisher
repositories that a configuration asks for.
-/

namespace ResourcePki

structure Server where
  config : Config
  services : Services
  repositories : RepositoryService
  /-- Whether an identity certificate, in base64, is valid at a time. -/
  isIdentity : String → Time → Bool

namespace Server

def handlers (s : Server) : List (Handler Journal) := standardHandlers s.services s.config.policy

def dispatcher (s : Server) : Dispatcher Journal := .ofHandlers s.handlers s.config.retries

def execute (s : Server) : CommandService Journal := s.dispatcher.execute

/-- The job that updates all certificates, which goes by a registry if that is filled. -/
def updateJob (s : Server) (registry : Except Error Unit) : UpdateJob Journal where
  allResourcesCa := s.config.allResourcesCa
  productionCa := s.config.productionCa
  limit := s.config.updateLimit
  registry := registry
  execute := s.execute

def publishers (s : Server) : PublisherRepositories Journal where
  execute := s.execute
  service := s.repositories
  limit := s.config.publisherLimit
  isIdentity := fun idCert => s.isIdentity idCert s.services.now

end Server

end ResourcePki
