import ResourcePki.Invariant.Violation
import ResourcePki.Tree.Basic

/-!
Checking a CA. All its publishable keys must be certified for the same resources, and these must
contain the resources of the valid certificates that the CA issued.
-/

namespace ResourcePki

namespace InvariantModel

/-- What a certificate says that a CA holds. -/
def held : InvariantModel → IncomingCertificate → ResourceSet
  | hosted, c => c.own
  | managed, c => c.certified

/-- Adds a set to some sets unless an equivalent one is there. -/
def addDistinct (sets : List ResourceSet) (r : ResourceSet) : List ResourceSet :=
  if sets.any (·.equivalent r) then sets else sets ++ [r]

/-- The different sets that the publishable keys of a CA are certified for. -/
def distinctIncoming (m : InvariantModel) (ca : CertificateAuthority) : List ResourceSet :=
  (ca.publishable.filterMap fun k => k.incoming.map m.held).foldl addDistinct []

/-- What the CA holds, if its keys agree; nothing if it has none. -/
def incoming (m : InvariantModel) (ca : CertificateAuthority) :
    Except InvariantViolation ResourceSet :=
  match m.distinctIncoming ca with
  | [] => .ok ∅
  | [r] => .ok r
  | distinct => .error (.incomingMismatch ca.name distinct)

end InvariantModel

def IssuedScope.includes : IssuedScope → OutgoingCertificate → Bool
  | child, c => c.subject.isChild
  | nonChild, c => !c.subject.isChild
  | all, _ => true

def IssuedScope.issued (s : IssuedScope) (ca : CertificateAuthority) : ResourceSet :=
  .unions ((ca.valid.filter s.includes).map (·.resources))

namespace InvariantModel

def checkContained (ca : CertificateAuthority) (incoming : ResourceSet) (s : IssuedScope) :
    Except InvariantViolation Unit :=
  if incoming.contains (s.issued ca) then .ok ()
  else .error (.notContained ca.name s incoming ((s.issued ca).excess incoming))

/-- What a model looks at; objects have to wait while a new manifest is awaited. -/
def scopes : InvariantModel → KeyRing → List IssuedScope
  | hosted, keys => if keys.checkNeeded then [.child] else [.child, .nonChild]
  | managed, _ => [.all]

/-- The first thing that is wrong with a CA; a CA that is not managed has nothing to check. -/
def check (m : InvariantModel) (ca : CertificateAuthority) : Except InvariantViolation Unit :=
  match ca.keys? with
  | none => .ok ()
  | some keys => do
    let incoming ← m.incoming ca
    (m.scopes keys).forM (checkContained ca incoming)

def violation? (m : InvariantModel) (ca : CertificateAuthority) : Option InvariantViolation :=
  match m.check ca with
  | .ok () => none
  | .error v => some v

def checkTree (m : InvariantModel) (t : CaTree) : List InvariantViolation :=
  t.toList.filterMap m.violation?

end InvariantModel

/-- What is wrong with the CAs of a tree under both models, the hosted one first. -/
def auditTree (t : CaTree) : List InvariantViolation := InvariantModel.all.flatMap (·.checkTree t)

end ResourcePki
