import ResourcePki.Authority.Identity
import ResourcePki.Resources.Json

/-! What can be found wrong with a CA: it must not issue more than it holds. -/

namespace ResourcePki

/-- Two views of what a CA holds and issues. -/
inductive InvariantModel where
  /-- A CA holds what its certificates list; children and objects are looked at one by one. -/
  | hosted
  /-- A CA also holds what it inherits; all that it issued is looked at together. -/
  | managed
deriving DecidableEq, Repr

namespace InvariantModel

def all : List InvariantModel := [hosted, managed]

def text : InvariantModel → String
  | hosted => "hosted"
  | managed => "managed"

end InvariantModel

inductive IssuedScope where
  | child
  | nonChild
  | all
deriving DecidableEq, Repr

def IssuedScope.text : IssuedScope → String
  | child => "issued child resources"
  | nonChild => "issued non-child resources"
  | all => "issued resources"

inductive InvariantViolation where
  | incomingMismatch (ca : CaName) (distinct : List ResourceSet)
  | notContained (ca : CaName) (scope : IssuedScope) (incoming missing : ResourceSet)
deriving DecidableEq, Repr

def InvariantViolation.message : InvariantViolation → String
  | incomingMismatch ca distinct =>
    let sets := String.intercalate ", " (distinct.map (·.describe))
    s!"CA {ca}: not all incoming certificates have the same resources: [{sets}]"
  | notContained ca scope incoming missing =>
    let held := incoming.describe
    s!"CA {ca}: with current resources {held} does not contain {scope.text} {missing.describe}"

def IssuedScope.name : IssuedScope → String
  | child => "child"
  | nonChild => "non_child"
  | all => "all"

def InvariantViolation.record (v : InvariantViolation) : Json :=
  let fields := match v with
    | incomingMismatch ca distinct =>
      [("kind", .str "IncomingMismatch"), ("ca", .str ca), ("distinct", toJson distinct)]
    | notContained ca scope incoming missing =>
      [("kind", .str "NotContained"), ("ca", .str ca), ("scope", .str scope.name),
        ("incoming", toJson incoming), ("missing", toJson missing)]
  .obj (fields ++ [("message", .str v.message)])

end ResourcePki
