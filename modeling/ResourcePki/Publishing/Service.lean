import ResourcePki.Error

/-! The external service that hosts the repositories of publishers, and what it was asked. -/

namespace ResourcePki

/-- A call of the repository service, and what came of it. -/
inductive RepositoryCall where
  | create (handle : PublisherHandle) (request : PublisherRequest)
      (outcome : Except RepositoryFault RepositoryResponse)
  | delete (handle : PublisherHandle) (outcome : Except RepositoryFault Unit)

/-- The service answers given all that it was asked before, the last call first. -/
structure RepositoryService where
  create : List RepositoryCall → PublisherHandle → PublisherRequest →
    Except RepositoryFault RepositoryResponse
  delete : List RepositoryCall → PublisherHandle → Except RepositoryFault Unit
  handle : List RepositoryCall → PublisherHandle

end ResourcePki
