import ResourcePki.Event
import ResourcePki.Tree.UnitOfWork

/-!
What a command works on. A session holds the changes that belong to the command and can be taken
back, and what cannot: the log, and the memory of the services that were asked. An action always
gives its session back, whether it fails or not.
-/

namespace ResourcePki

structure Session (ε : Type) where
  work : UnitOfWork
  status : CommandStatus
  /-- The events since the session began, in order. -/
  log : List Event
  memory : ε

/-- A step of a command that may fail; `memory` is of type `ε`. -/
abbrev Action (ε α : Type) := ExceptT Error (StateM (Session ε)) α

namespace Action

variable {ε α : Type}

def ofExcept (r : Except Error α) : Action ε α := fun s => (r, s)

def log (e : Event) : Action ε Unit := fun s => (.ok (), { s with log := s.log ++ [e] })

def setHadEffect : Action ε Unit := fun s => (.ok (), { s with status := s.status.setHadEffect })

def tree : Action ε CaTree := fun s => (.ok s.work.tree, s)

def get? (id : CaId) : Action ε (Option CertificateAuthority) := fun s => (.ok (s.work.get? id), s)

def require (id : CaId) : Action ε CertificateAuthority := fun s => (s.work.require id, s)

def insert (ca : CertificateAuthority) : Action ε Unit := fun s =>
  let (r, work) := s.work.insert ca
  (r, { s with work })

def update (id : CaId) (f : CertificateAuthority → Except Error CertificateAuthority) :
    Action ε Unit := fun s =>
  let (r, work) := s.work.update id fun ca =>
    match f ca with
    | .ok ca => (.ok (), ca)
    | .error e => (.error e, ca)
  (r.bind fun r => r, { s with work })

/-- Changes one CA by a step that may fail and uses the services. -/
def updateWith (id : CaId)
    (f : ε → CertificateAuthority → Except Error CertificateAuthority × ε) :
    Action ε Unit := fun s =>
  let (r, work) := s.work.update id fun ca =>
    match f s.memory ca with
    | (.ok ca', memory) => ((.ok (), memory), ca')
    | (.error e, memory) => ((.error e, memory), ca)
  match r with
  | .ok (r, memory) => (r, { s with work, memory })
  | .error e => (.error e, { s with work })

/-- Changes a CA and its parent by a step that may fail and uses the services. -/
def updatePair (parent child : CaId)
    (f : ε → CertificateAuthority → CertificateAuthority →
      (Except Error α × ε) × CertificateAuthority × CertificateAuthority) :
    Action ε α := fun s =>
  let (r, work) := s.work.updatePair parent child (f s.memory)
  match r with
  | .ok (r, memory) => (r, { s with work, memory })
  | .error e => (.error e, { s with work })

def ask (f : ε → α × ε) : Action ε α := fun s =>
  let (a, memory) := f s.memory
  (.ok a, { s with memory })

def attempt (f : ε → Except Error α × ε) : Action ε α := fun s =>
  let (r, memory) := f s.memory
  (r, { s with memory })

end Action

end ResourcePki
