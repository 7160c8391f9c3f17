import ResourcePki.Certificate.Signed

/-! Objects that are handed to a repository, and how far the repository has come with them. -/

namespace ResourcePki

inductive PublicationStatus where
  | toBePublished
  | published
  | toBeWithdrawn
  | withdrawn
deriving DecidableEq, Repr

namespace PublicationStatus

def names : List (String × PublicationStatus) :=
  [("to_be_published", toBePublished), ("published", published),
    ("to_be_withdrawn", toBeWithdrawn), ("withdrawn", withdrawn)]

instance : JsonForm PublicationStatus := ⟨Json.nameOf names, Json.named? names⟩

/-- What never reached the repository is withdrawn at once. -/
def withdraw : PublicationStatus → PublicationStatus
  | toBePublished => withdrawn
  | published => toBeWithdrawn
  | s => s

/-- The repository confirmed the pending change. -/
def confirm : PublicationStatus → PublicationStatus
  | toBePublished => published
  | toBeWithdrawn => withdrawn
  | s => s

def isPublished : PublicationStatus → Bool
  | toBePublished => true
  | published => true
  | _ => false

end PublicationStatus

structure PublishedObject where
  filename : String
  directory : RsyncUri
  content : Bytes
  validity : Validity
  status : PublicationStatus := .toBePublished
deriving DecidableEq, Repr

namespace PublishedObject

def uri (o : PublishedObject) : Except Error RsyncUri :=
  (o.directory.join o.filename).mapError fun fault =>
    .illegalState (.noUri o.filename o.directory fault)

def isPublished (o : PublishedObject) : Bool := o.status.isPublished

def withdraw (o : PublishedObject) : PublishedObject := { o with status := o.status.withdraw }

def markPublished (o : PublishedObject) : PublishedObject := { o with status := o.status.confirm }

instance : JsonForm PublishedObject where
  toJson o := .obj [("filename", toJson o.filename), ("directory", toJson o.directory),
    ("content", toJson o.content), ("validity", toJson o.validity), ("status", toJson o.status)]
  ofJson? j := do
    let [filename, directory, content, validity, status] ← j.slots
      [["filename"], ["directory"], ["content"], ["validity"], ["status"]] | none
    return ⟨← Json.required filename, ← Json.required directory, ← Json.required content,
      ← Json.required validity, ← Json.required status⟩

end PublishedObject

end ResourcePki
