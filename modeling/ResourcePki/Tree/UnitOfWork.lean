import ResourcePki.Tree.Basic

/-!
Changes to the tree that are kept or taken back as a whole. Before a CA is first changed, a copy of
it is put aside; `rollback` puts the copies back.
-/

namespace ResourcePki

structure UnitOfWork where
  tree : CaTree
  /-- What stood under the numbers changed so far; nothing under those of new CAs. -/
  undo : SortedMap CaId (Option CertificateAuthority)
  /-- The counter of numbers at the start. -/
  startId : Nat
deriving DecidableEq, Repr

namespace UnitOfWork

def begin (t : CaTree) : UnitOfWork := ⟨t, ∅, t.nextId⟩

def get? (w : UnitOfWork) (id : CaId) : Option CertificateAuthority := w.tree.get? id

def require (w : UnitOfWork) (id : CaId) : Except Error CertificateAuthority :=
  match w.get? id with
  | some ca => .ok ca
  | none => .error (.caUnknown id)

/-- Puts aside what stands under a number, unless that was done before. -/
def remember (w : UnitOfWork) (id : CaId) : UnitOfWork :=
  if w.undo.contains id then w else { w with undo := w.undo.insert id (w.tree.get? id) }

/-- Puts a CA in place of the one that is there, which must have been put aside. -/
def write (w : UnitOfWork) (id : CaId) (ca : CertificateAuthority) : UnitOfWork :=
  { w with tree := w.tree.set id ca }

def update {α : Type} (w : UnitOfWork) (id : CaId)
    (f : CertificateAuthority → α × CertificateAuthority) : Except Error α × UnitOfWork :=
  match w.get? id with
  | none => (.error (.caUnknown id), w)
  | some ca =>
    let (a, ca) := f ca
    (.ok a, (w.remember id).write id ca)

def updatePair {α : Type} (w : UnitOfWork) (parent child : CaId)
    (f : CertificateAuthority → CertificateAuthority →
      α × CertificateAuthority × CertificateAuthority) : Except Error α × UnitOfWork :=
  if parent = child then (.error (.illegalState (.ownParent parent)), w)
  else
    match w.get? parent with
    | none => (.error (.caUnknown parent), w)
    | some p =>
      let w := w.remember parent
      match w.get? child with
      | none => (.error (.caUnknown child), w)
      | some c =>
        let (a, p, c) := f p c
        (.ok a, ((w.remember child).write parent p).write child c)

/-- Puts aside the parent of a new CA, if it has one in the tree. -/
def rememberParent (w : UnitOfWork) : Option CaId → UnitOfWork
  | none => w
  | some parent => if w.tree.contains parent then w.remember parent else w

def insert (w : UnitOfWork) (ca : CertificateAuthority) : Except Error Unit × UnitOfWork :=
  let w := w.rememberParent ca.parent
  match w.tree.insert ca with
  | .error e => (.error e, w)
  | .ok tree => (.ok (), { w.remember ca.id with tree })

def commit (w : UnitOfWork) : CaTree := w.tree

/-- Puts back what stood under a number. -/
def restore (t : CaTree) (e : CaId × Option CertificateAuthority) : CaTree :=
  match e.2 with
  | some ca => t.set e.1 ca
  | none => { t with cas := t.cas.erase e.1 }

def rollback (w : UnitOfWork) : CaTree :=
  if w.undo.isEmpty then w.tree
  else { w.undo.entries.foldl restore w.tree with nextId := w.startId }

end UnitOfWork

end ResourcePki
