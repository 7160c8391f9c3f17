import ResourcePki.Authority.TrustAnchor
import ResourcePki.Certificate.Signed
import ResourcePki.Invariant.Violation
import ResourcePki.Metrics

/-!
What issuing certificates depends on outside the tree: the clock, the resource registry, the source
of keys and the signer. They are given with all that they were asked before, which a journal keeps
beside the tree: what was signed or created stays so when a command is taken back.
-/

namespace ResourcePki

/-- What a CA holds according to the registry; nothing if it is not listed there. -/
abbrev ResourceLookup := CaIdentity → Except Error (Option ResourceSet)

structure Services where
  now : Time
  lookup : ResourceLookup
  keys : KeySource
  sign : Signer
  /-- The identifier of a trust anchor request, given how many there were before. -/
  requestId : Nat → Uuid

structure InvariantMetrics where
  check : Timer
  violations : Counter
deriving DecidableEq, Repr

namespace InvariantMetrics

def ofModel (m : InvariantModel) : InvariantMetrics where
  check := { name := s!"rpki_issuer_{m.text}_invariant_check"
             help := s!"time to check {m.text} certificate authority invariants" }
  violations := { name := s!"rpki_issuer_{m.text}_invariant_violations"
                  help := s!"count of {m.text} certificate authority invariant violations" }

/-- Counts a check. How long it took is not part of what is computed here. -/
def checked (metrics : InvariantMetrics) (violated : Bool) : InvariantMetrics where
  check := metrics.check.observe 0
  violations := if violated then metrics.violations.increment else metrics.violations

end InvariantMetrics

structure Journal where
  /-- What the signer was asked, the last request first. -/
  signings : List Signing := []
  /-- What the source of keys answered, the last answer first. -/
  keys : List (Except Error String) := []
  requests : Nat := 0
  hosted : InvariantMetrics := .ofModel .hosted
  managed : InvariantMetrics := .ofModel .managed

namespace Journal

def metrics (j : Journal) : InvariantModel → InvariantMetrics
  | .hosted => j.hosted
  | .managed => j.managed

def checked (j : Journal) (m : InvariantModel) (violated : Bool) : Journal :=
  match m with
  | .hosted => { j with hosted := j.hosted.checked violated }
  | .managed => { j with managed := j.managed.checked violated }

end Journal

end ResourcePki
